import Memuncached.C.Text
import Memuncached.C.Socket

/-!
# The client's decoder

`memuncached_recv` of `libmemuncached.c`: the response is read into a buffer
that doubles when it is full, its two header lines are parsed as soon as they
are complete, and the function returns when LENGTH + 3 bytes have arrived
behind them.

A pointer is a block of the heap and an offset: `realloc` may move the buffer
to another block, and what still points into the old one may not be used any
more. The run ends in `fault` where C leaves the behaviour undefined: an access
outside a block or through such a pointer, and an `int` that overflows.
-/

namespace Memuncached.Client

/-! ## Memory -/

/-- A `char *`; `wild` is what arithmetic across blocks yields. -/
inductive Pointer where
  | null
  | into (block off : ℕ)
  | wild
  deriving DecidableEq, Repr

/-- What a call of `realloc` does with the block. -/
inductive ReallocResult where
  | null | inPlace | moved
  deriving DecidableEq, Repr

/-- The heap as the client meets it: what its calls of `realloc` do, in order,
    and the byte found at offset `i` of a block where nobody has written. -/
structure Heap where
  realloc : ℕ → ReallocResult
  fresh : ℕ → Byte

/-- `buffer_new + (p - buffer)` for the blocks of the two buffers. -/
def Pointer.rebase (p : Pointer) (old new : ℕ) : Pointer :=
  if old = new then p
  else
    match p with
    | .into block off => if block = old then .into new off else .wild
    | .null | .wild => .wild

/-- The fields of `client->response`. -/
structure ClientResponse where
  code : ℤ
  description : Pointer
  bodySize : ℕ
  body : Pointer
  bodyType : Int8
  deriving DecidableEq, Repr

/-- `memuncached_client_t`, its socket apart: `block` is the block `buffer`
    points to, numbered in the order the buffer has been in them, and
    `reallocs` counts the calls of `realloc` so far. -/
structure MemuncachedClient where
  block : ℕ
  buffer : List Byte
  bufferSize : ℕ
  reallocs : ℕ
  response : ClientResponse
  deriving DecidableEq, Repr

/-- A new client with a buffer of `size` zeroed bytes. -/
def clientOf (size : ℕ) : MemuncachedClient where
  block := 0
  buffer := List.replicate size 0
  bufferSize := size
  reallocs := 0
  response := { code := 0, description := .null, bodySize := 0, body := .null, bodyType := 0 }

/-- The offset of a pointer into the buffer. -/
def MemuncachedClient.offset (client : MemuncachedClient) : Pointer → Option ℕ
  | .into block off => if block = client.block then some off else none
  | .null | .wild => none

/-- The `n` bytes behind a pointer. -/
def MemuncachedClient.bytesAt (client : MemuncachedClient) (p : Pointer) (n : ℕ) :
    Option (List Byte) :=
  (client.offset p).bind fun off =>
    if off + n ≤ client.buffer.length then some ((client.buffer.drop off).take n) else none

/-- `atoi` of the text at an offset; `none` when no byte of the block ends the
    number. -/
def atoiAt (buffer : List Byte) (off : ℕ) : Option ℤ :=
  if ((splitSign ((buffer.drop off).dropWhile isSpace)).2.dropWhile isDigit).isEmpty then none
  else some (atoi (buffer.drop off))

/-- The conversion of an `int` to `size_t`. -/
def toSizeT (x : ℤ) : ℕ := (x % 2 ^ 64).toNat

/-! ## The two lines of the header -/

/-- The local variables of `memuncached_recv`. -/
structure RecvLoop where
  client : MemuncachedClient
  readSize : ℕ
  totalSize : ℕ
  payloadReadSize : ℕ
  lineNumber : ℕ
  lineStart : Pointer
  deriving DecidableEq, Repr

/-- The scan of lines 42-43: the offset of the first newline from `itr` on;
    the argument is what lies between `itr` and `itr_end`. -/
def scanNewline : List Byte → (itr : ℕ) → Option ℕ
  | [], _ => none
  | b :: rest, itr => if b == 10 then some itr else scanNewline rest (itr + 1)

/-- The scan of lines 71-76, which also keeps the last blank. -/
def scanLength : List Byte → (itr : ℕ) → (whitespace : Option ℕ) → Option (ℕ × Option ℕ)
  | [], _, _ => none
  | b :: rest, itr, whitespace =>
    let whitespace := if b == 32 then some itr else whitespace
    if b == 10 then some (itr, whitespace) else scanLength rest (itr + 1) whitespace

/-- Lines 38-64: the first line, CODE and DESCRIPTION. -/
def RecvLoop.statusLine (l : RecvLoop) : Option RecvLoop :=
  if l.lineNumber = 0 then do
    let lineStart ← l.client.offset l.lineStart
    match scanNewline ((l.client.buffer.take l.totalSize).drop lineStart) lineStart with
    | none => return l
    | some itr =>
      if itr = 0 ∨ l.client.buffer.length ≤ lineStart + 3 then none
      else
        let buffer := (l.client.buffer.set (itr - 1) 0).set (lineStart + 3) 0
        let code ← atoiAt buffer lineStart
        let response :=
          { l.client.response with
            code := code, description := .into l.client.block (lineStart + 4) }
        return { l with
          client := { l.client with buffer := buffer, response := response }
          lineNumber := 1
          lineStart := .into l.client.block (itr + 1) }
  else return l

/-- Lines 66-107: the second line, LENGTH and TYPE. -/
def RecvLoop.lengthLine (l : RecvLoop) : Option RecvLoop :=
  if l.lineNumber = 1 then do
    let lineStart ← l.client.offset l.lineStart
    match scanLength ((l.client.buffer.take l.totalSize).drop lineStart) lineStart none with
    | none => return l
    | some (itr, whitespace) =>
      if itr = 0 then none
      else
        let buffer := l.client.buffer.set (itr - 1) 0
        let buffer := whitespace.elim buffer fun w => buffer.set w 0
        let bodyType ← whitespace.elim (some l.client.response.bodyType) fun w =>
          (atoiAt buffer (w + 1)).map Int8.ofInt
        let bodySize ← atoiAt buffer lineStart
        let response :=
          { l.client.response with
            bodyType := bodyType, bodySize := toSizeT bodySize
            body := .into l.client.block (itr + 1) }
        return { l with
          client := { l.client with buffer := buffer, response := response }
          readSize := l.totalSize - (itr + 1)
          lineNumber := 2
          lineStart := .into l.client.block (itr + 1) }
  else return l

/-- Lines 109-112: `payload_read_size += read_size`. -/
def RecvLoop.payload (l : RecvLoop) : RecvLoop :=
  if l.lineNumber = 2 then { l with payloadReadSize := l.payloadReadSize + l.readSize } else l

/-- Lines 109 and 122: the body and what follows it have arrived. -/
def RecvLoop.complete (l : RecvLoop) : Bool :=
  l.lineNumber == 2 && (l.client.response.bodySize + 3) % 2 ^ 64 ≤ l.payloadReadSize

/-! ## The loop -/

/-- Where `memuncached_recv` is: before a `recv`, or returned. -/
inductive RecvState where
  | loop (l : RecvLoop)
  | returned (ok : Bool) (client : MemuncachedClient)
  | fault
  deriving DecidableEq, Repr

/-- Lines 138-151: the full buffer doubles; `line_start` stays as it is. -/
def RecvLoop.grow (heap : Heap) (l : RecvLoop) : RecvState :=
  let size := l.client.bufferSize
  if size < l.totalSize + 1 then
    if intMax < 2 * (size : ℤ) then .fault
    else
      let client := { l.client with bufferSize := 2 * size, reallocs := l.client.reallocs + 1 }
      match heap.realloc l.client.reallocs with
      | .null => .returned false client
      | result =>
        let old := l.client.block
        let new := if result = .moved then old + 1 else old
        let response :=
          { client.response with
            description := client.response.description.rebase old new
            body := client.response.body.rebase old new }
        let buffer := client.buffer ++
          (List.range (2 * size - client.buffer.length)).map fun i =>
            heap.fresh (client.buffer.length + i)
        .loop { l with
          client := { client with block := new, buffer := buffer, response := response } }
  else .loop l

/-- Lines 38-151: what has arrived is parsed, and the buffer grows. -/
def RecvLoop.handle (heap : Heap) (l : RecvLoop) : RecvState :=
  match l.statusLine.bind RecvLoop.lengthLine with
  | none => .fault
  | some l => if l.payload.complete then .returned true l.payload.client else l.payload.grow heap

/-- The body of the loop behind a `recv` that returned data. -/
def RecvLoop.body (heap : Heap) (l : RecvLoop) (bytes : List Byte) : RecvState :=
  if l.client.buffer.length < l.totalSize + bytes.length then .fault
  else
    RecvLoop.handle heap
      { l with
        client := { l.client with buffer := store l.client.buffer l.totalSize bytes }
        readSize := bytes.length
        totalSize := l.totalSize + bytes.length }

/-- One iteration; a `recv` that blocks leaves everything as it is. -/
def recvStep (heap : Heap) : RecvState × Socket → RecvState × Socket
  | (.loop l, sock) =>
    match sock.recv (l.client.bufferSize - l.totalSize) with
    | (.data bytes, sock) => (l.body heap bytes, sock)
    | (.eof, sock) => (.returned false l.client, sock)
    | (.error, sock) => (.returned false l.client, sock)
    | (.block, sock) => (.loop l, sock)
  | s => s

/-- The start of `memuncached_recv` (lines 5-18). -/
def recvStart (client : MemuncachedClient) : RecvState :=
  .loop
    { client :=
        { client with
          response := { code := 0, description := .null, bodySize := 0, body := .null
                        bodyType := 0 } }
      readSize := 0
      totalSize := 0
      payloadReadSize := 0
      lineNumber := 0
      lineStart := .into client.block 0 }

/-- `memuncached_recv` after `n` iterations. -/
def memuncachedRecv (heap : Heap) (client : MemuncachedClient) (sock : Socket) (n : ℕ) :
    RecvState × Socket := (recvStep heap)^[n] (recvStart client, sock)

/-- `memuncached_recv` returns `ok`, leaving the client and the socket so. -/
def RecvReturns (heap : Heap) (client : MemuncachedClient) (sock : Socket) (ok : Bool)
    (client' : MemuncachedClient) (sock' : Socket) : Prop :=
  ∃ n, memuncachedRecv heap client sock n = (.returned ok client', sock')

/-- A call that has returned stays so, hence it returns once. -/
theorem recvStep_returned (heap : Heap) (ok : Bool) (client : MemuncachedClient) (sock : Socket)
    (n : ℕ) : (recvStep heap)^[n] (.returned ok client, sock) = (.returned ok client, sock) := by
  induction n with
  | zero => rfl
  | succ n ih => rw [Function.iterate_succ_apply', ih]; rfl

theorem recvStep_fault (heap : Heap) (sock : Socket) (n : ℕ) :
    (recvStep heap)^[n] (.fault, sock) = (.fault, sock) := by
  induction n with
  | zero => rfl
  | succ n ih => rw [Function.iterate_succ_apply', ih]; rfl

end Memuncached.Client
