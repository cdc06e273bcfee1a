import Memuncached.Table.Calls

/-!
# Replies and commands

The replies of the server (`RESPONSE_WRITE` and the `REPLY_*` macros of
`connection.h`) and the commands of `connection.c` that act on the table. A
reply is the bytes of one `dprintf` or `write`, without the log lines the
macros print besides; a command is a table program that returns the replies it
writes, in order. The memory for values and replies is taken to be granted.

* `Response.encode` is the documented response format, and
  `responseWrite_eq_encode`, `numberReply_eq_encode` and
  `stringReply_eq_encode` say that every reply has it.
-/

namespace Memuncached.Server

/-! ## The response format -/

/-- A response, `{CODE} {DESCRIPTION}\r\n{LENGTH} [TYPE]\r\n{PAYLOAD}\0\r\n`. -/
structure Response where
  code : List Byte
  description : List Byte
  type : Option ℕ
  body : List Byte
  deriving DecidableEq, Repr

/-- The optional type of the second line. -/
def encodeType : Option ℕ → List Byte
  | none => []
  | some type => 32 :: decimalDigits type

/-- The bytes of a response. -/
def Response.encode (r : Response) : List Byte :=
  r.code ++ 32 :: r.description ++ crlf ++ decimalDigits r.body.length ++ encodeType r.type ++
    crlf ++ r.body ++ 0 :: crlf

/-! ## `connection.h` -/

def response200Ok : List Byte := ascii "200 OK"
def response400BadRequest : List Byte := ascii "400 BAD REQUEST"
def response404NotFound : List Byte := ascii "404 NOT FOUND"
def response409KeyExists : List Byte := ascii "409 KEY EXISTS"
def response500ServerError : List Byte := ascii "500 SERVER ERROR"

/-- `RESPONSE_WRITE` (connection.h, lines 48-49); `data` is the formatted data. -/
def responseWrite (code data : List Byte) : List Byte :=
  code ++ crlf ++ fmtD data.length ++ crlf ++ data ++ 0 :: crlf

/-- `REPLY_BAD_REQUEST`; the command and the received text are only logged. -/
def replyBadRequest (message : List Byte) : List Byte :=
  responseWrite response400BadRequest message

/-- `REPLY_SERVER_ERROR`. -/
def replyServerError (message : List Byte) : List Byte :=
  responseWrite response500ServerError message

/-- `REPLY_NOT_FOUND`. -/
def replyNotFound : List Byte := responseWrite response404NotFound []

/-- `REPLY_SUCCESS`. -/
def replySuccess (data : List Byte) : List Byte := responseWrite response200Ok data

/-- `REPLY_KEY_EXISTS`. -/
def replyKeyExists : List Byte := responseWrite response409KeyExists []

theorem fmtD_natCast (n : ℕ) : fmtD (n : ℤ) = decimalDigits n := by
  rw [fmtD, if_neg (by omega), Int.natAbs_natCast]

theorem responseWrite_eq_encode (code description data : List Byte) :
    responseWrite (code ++ 32 :: description) data =
      Response.encode { code := code, description := description, type := none, body := data } := by
  simp [responseWrite, Response.encode, encodeType, fmtD_natCast]

/-! ## `memuncached_get` -/

/-- The reply to a numeric value (connection.c, lines 392-399). -/
def numberReply (type : UInt8) (text : List Byte) : List Byte :=
  response200Ok ++ crlf ++ fmtD text.length ++ 32 :: fmtD type.toNat ++ crlf ++ text ++ 0 :: crlf

/-- `sprintf(buffer, RESPONSE_200_OK "\r\n%d %d\r\n", payload_len, type)`,
    without its terminator. -/
def stringReplyHeader (type : UInt8) (payloadLen : ℕ) : List Byte :=
  response200Ok ++ crlf ++ fmtD payloadLen ++ 32 :: fmtD type.toNat ++ crlf

/-- `header_len + payload_len + 3` (connection.c, line 403). -/
def stringReplyLen (type : UInt8) (payloadLen : ℕ) : ℕ :=
  (stringReplyHeader type payloadLen).length + payloadLen + 3

/-- What lines 409-411 of `connection.c` store into the reply buffer, as pairs
    of an offset and the bytes written there; each `sprintf` appends a
    terminator. -/
def stringReplyStores (type : UInt8) (payloadLen : ℕ) (value : List Byte) :
    List (ℕ × List Byte) :=
  let header := stringReplyHeader type payloadLen
  [(0, header ++ [0]), (header.length, value.take payloadLen),
    (header.length + payloadLen, 0 :: crlf ++ [0])]

/-- The reply to a string value (connection.c, lines 400-415): the
    `buffer_len` bytes of the zeroed buffer after the stores. -/
def stringReply (type : UInt8) (payloadLen : ℕ) (value : List Byte) : List Byte :=
  (stringReplyStores type payloadLen value).foldl (fun buffer s => store buffer s.1 s.2)
    (List.replicate (stringReplyLen type payloadLen) 0)

theorem numberReply_eq_encode (type : UInt8) (text : List Byte) :
    numberReply type text =
      Response.encode
        { code := ascii "200", description := ascii "OK", type := some type.toNat, body := text } := by
  have hcode : response200Ok = ascii "200" ++ 32 :: ascii "OK" := by decide
  simp [numberReply, Response.encode, encodeType, fmtD_natCast, hcode]

/-- The reply to a string is its header, its bytes and the trailer: the last
    terminator falls behind the bytes that are sent. -/
theorem stringReply_eq (type : UInt8) (value : List Byte) :
    stringReply type value.length value =
      stringReplyHeader type value.length ++ value ++ 0 :: crlf := by
  set header := stringReplyHeader type value.length with hheader
  have hfirst : store (List.replicate (header.length + value.length + 3) (0 : Byte)) 0
      (header ++ [0]) = header ++ List.replicate (value.length + 3) 0 := by
    have hstore := @store_append [] (List.replicate (header.length + value.length + 3) 0)
      (header ++ [0]) 0 rfl (by simp only [List.length_append, List.length_singleton,
        List.length_replicate]; omega)
    have hrest : header.length + value.length + 3 - (header ++ [(0 : Byte)]).length =
        value.length + 2 := by
      rw [List.length_append, List.length_singleton]
      omega
    rw [List.nil_append, List.nil_append, List.drop_replicate, hrest] at hstore
    rw [hstore, List.append_assoc, List.replicate_succ (n := value.length + 2)]
    rfl
  have hsecond : store (header ++ List.replicate (value.length + 3) (0 : Byte)) header.length value =
      (header ++ value) ++ [0, 0, 0] := by
    rw [store_append rfl (by simp), List.drop_replicate, Nat.add_sub_cancel_left]
    rfl
  have hthird : store ((header ++ value) ++ [0, 0, 0]) (header.length + value.length)
      (0 :: crlf ++ [0]) = (header ++ value) ++ 0 :: crlf := by
    rw [store_append_overflow (by rw [List.length_append]) (by decide)]
    rfl
  unfold stringReply stringReplyStores stringReplyLen
  simp only [List.foldl_cons, List.foldl_nil, ← hheader, List.take_length]
  rw [hfirst, hsecond, hthird]

theorem stringReply_eq_encode (type : UInt8) (value : List Byte) :
    stringReply type value.length value =
      Response.encode
        { code := ascii "200", description := ascii "OK", type := some type.toNat,
          body := value } := by
  have hcode : response200Ok = ascii "200" ++ 32 :: ascii "OK" := by decide
  rw [stringReply_eq]
  simp [stringReplyHeader, Response.encode, encodeType, fmtD_natCast, hcode]

section Commands

variable {R : Type} [CacheValueReal R]

/-- The reply of `memuncached_get` to a value (connection.c, lines 391-418);
    `none` when `buffer_len`, an `int`, overflows. -/
def getReply (v : CacheValue R) : Option (List Byte) :=
  if v.type = cacheValueDecimal then some (numberReply v.type (fmtD v.value.asDecimal.toInt))
  else if v.type = cacheValueReal then
    some (numberReply v.type (CacheValueReal.fmtLf v.value.asReal))
  else if v.type = cacheValueString then
    if (stringReplyLen v.type v.length : ℤ) ≤ intMax then
      some (stringReply v.type v.length v.value.asString)
    else none
  else some (replySuccess [])

end Commands

/-! ## Table programs -/

namespace TableProg

variable {R : Type}

def set (key : List Byte) (type : UInt8) (value : CacheData R) (size : ℕ) : TableProg R Bool :=
  CallTree.single (TableCall.set key type value size)

def get (key : List Byte) : TableProg R (Option (CacheValue R)) :=
  CallTree.single (TableCall.get key)

def inc (key : List Byte) (offset : R) : TableProg R (Option (CacheValue R)) :=
  CallTree.single (TableCall.inc key offset)

def dec (key : List Byte) (offset : R) : TableProg R (Option (CacheValue R)) :=
  CallTree.single (TableCall.dec key offset)

def del (key : List Byte) : TableProg R Bool := CallTree.single (TableCall.del key)

variable [CacheValueReal R]

/-- Execute a program alone. -/
def exec {α : Type} (p : TableProg R α) (t : HashTable R) : α × HashTable R :=
  CallTree.run TableCall.exec p t

variable {α β : Type}

@[simp] theorem exec_pure (a : α) (t : HashTable R) : exec (pure a : TableProg R α) t = (a, t) := rfl

@[simp] theorem exec_bind (p : TableProg R α) (f : α → TableProg R β) (t : HashTable R) :
    exec (p >>= f) t = exec (f (exec p t).1) (exec p t).2 := CallTree.run_bind _ p f t

@[simp] theorem exec_set (key : List Byte) (type : UInt8) (value : CacheData R) (size : ℕ)
    (t : HashTable R) : exec (set key type value size) t = hashTableSet t key type value size := rfl

@[simp] theorem exec_get (key : List Byte) (t : HashTable R) :
    exec (get key) t = (hashTableGet t key, t) := rfl

@[simp] theorem exec_inc (key : List Byte) (offset : R) (t : HashTable R) :
    exec (inc key offset) t = hashTableInc t key offset := rfl

@[simp] theorem exec_dec (key : List Byte) (offset : R) (t : HashTable R) :
    exec (dec key offset) t = hashTableDec t key offset := rfl

@[simp] theorem exec_del (key : List Byte) (t : HashTable R) :
    exec (del key) t = hashTableDel t key := rfl

end TableProg

section Commands

variable {R : Type} [CacheValueReal R]

/-- `memuncached_get` (connection.c, lines 385-420): the replies, or `none`
    where C leaves the behaviour undefined. -/
def memuncachedGet (key : List Byte) : TableProg R (Option (List (List Byte))) := do
  match ← TableProg.get key with
  | none => return some [replyNotFound]
  | some cacheValue => return (getReply cacheValue).map fun reply => [reply]

/-- `memuncached_del` (connection.c, lines 379-383). -/
def memuncachedDel (key : List Byte) : TableProg R (Option (List (List Byte))) := do
  match ← memuncachedGet key with
  | none => return none
  | some writes =>
    let _ ← TableProg.del key
    return some writes

/-- Whether INC and DEC store INITIAL as a decimal (connection.c, lines 350
    and 369). The terminator of the C string reads as 0. -/
def initialIsDecimal : Option (List Byte) → Bool
  | none => true
  | some initial => initial.getD 0 0 != 0 && initial.getD 1 0 != 46

/-- `initial_d` and `initial_r` (connection.c, lines 347-348). -/
def initialD : Option (List Byte) → Int64
  | none => 1
  | some initial => atoll initial

def initialR : Option (List Byte) → R
  | none => CacheValueReal.ofInt 1
  | some initial => CacheValueReal.atof initial

/-- `v_offset` (connection.c, lines 343 and 362). -/
def vOffset : Option (List Byte) → R
  | none => CacheValueReal.ofInt 1
  | some offset => CacheValueReal.atof offset

/-- The body of `memuncached_dec` and `memuncached_inc` (connection.c, lines
    341-377), which differ in the table operation. -/
def memuncachedUpdate (update : List Byte → R → TableProg R (Option (CacheValue R)))
    (key : List Byte) (offset initial : Option (List Byte)) :
    TableProg R (Option (List (List Byte))) := do
  match ← update key (vOffset offset) with
  | some _ => memuncachedGet key
  | none =>
    if initialIsDecimal initial then
      let _ ← TableProg.set key cacheValueDecimal (.decimal (initialD initial)) 0
      memuncachedGet key
    else
      let _ ← TableProg.set key cacheValueReal (.real (initialR initial)) 0
      memuncachedGet key

/-- `memuncached_dec` (connection.c, lines 341-358). -/
def memuncachedDec (key : List Byte) (offset initial : Option (List Byte)) :
    TableProg R (Option (List (List Byte))) := memuncachedUpdate TableProg.dec key offset initial

/-- `memuncached_inc` (connection.c, lines 360-377). -/
def memuncachedInc (key : List Byte) (offset initial : Option (List Byte)) :
    TableProg R (Option (List (List Byte))) := memuncachedUpdate TableProg.inc key offset initial

/-- `payload[v_length] = 0; payload[v_length + 1] = 0;` (connection.c, lines
    454-455); `none` when a store falls outside the payload buffer or the
    buffer is NULL. -/
def putTerminators (payload : Option (List Byte)) (vLength : ℤ) : Option (List Byte) := do
  let buffer ← payload
  if 0 ≤ vLength ∧ vLength + 1 < buffer.length then
    return store buffer vLength.toNat [0, 0]
  else none

/-- `memuncached_set` behind the existence check (connection.c, lines
    453-472). The outer result is `none` where a store misses the payload
    buffer, which C leaves undefined. -/
def setValue (key type : List Byte) (vLength : ℤ) (payload : Option (List Byte)) :
    TableProg R (Option (List (List Byte))) := do
  let _ ← TableProg.del key
  match putTerminators payload vLength with
  | none => return none
  | some payload =>
    let vType : UInt8 := type.headD 0 - 48
    if vType = cacheValueDecimal then
      let _ ← TableProg.set key vType (.decimal (atoll payload)) 0
      return some [replySuccess []]
    else if vType = cacheValueReal then
      let _ ← TableProg.set key vType (.real (CacheValueReal.atof payload)) 0
      return some [replySuccess []]
    else if vType = cacheValueString then
      let _ ← TableProg.set key vType (.string payload) vLength.toNat
      return some [replySuccess []]
    else return some [replyBadRequest (ascii "The argument LENGTH must be 0, 1, or 2.")]

/-- `memuncached_set` once its payload is read (connection.c, lines 448-472). -/
def setTable (key type : List Byte) (vLength : ℤ) (payload : Option (List Byte))
    (overwrite : Bool) : TableProg R (Option (List (List Byte))) := do
  if overwrite then setValue key type vLength payload
  else
    match ← TableProg.get key with
    | some _ => return some [replyKeyExists]
    | none => setValue key type vLength payload

/-! ## The number of replies -/

/-- The program replies once, unless its behaviour is undefined. -/
def RepliesOnce (p : TableProg R (Option (List (List Byte)))) : Prop :=
  ∀ t, (TableProg.exec p t).1 = none ∨ ∃ reply, (TableProg.exec p t).1 = some [reply]

theorem memuncachedGet_repliesOnce (key : List Byte) :
    RepliesOnce (memuncachedGet key : TableProg R _) := by
  intro t
  unfold memuncachedGet
  simp only [TableProg.exec_bind, TableProg.exec_get]
  cases hashTableGet t key with
  | none => exact Or.inr ⟨_, rfl⟩
  | some v =>
    dsimp only
    rw [TableProg.exec_pure]
    cases getReply v with
    | none => exact Or.inl rfl
    | some reply => exact Or.inr ⟨reply, rfl⟩

theorem memuncachedDel_repliesOnce (key : List Byte) :
    RepliesOnce (memuncachedDel key : TableProg R _) := by
  intro t
  unfold memuncachedDel
  rw [TableProg.exec_bind]
  rcases memuncachedGet_repliesOnce key t with h | ⟨reply, h⟩
  · rw [h]
    exact Or.inl rfl
  · rw [h]
    exact Or.inr ⟨reply, rfl⟩

theorem memuncachedUpdate_repliesOnce
    (update : List Byte → R → TableProg R (Option (CacheValue R))) (key : List Byte)
    (offset initial : Option (List Byte)) :
    RepliesOnce (memuncachedUpdate update key offset initial) := by
  intro t
  unfold memuncachedUpdate
  rw [TableProg.exec_bind]
  cases (TableProg.exec (update key (vOffset offset)) t).1 with
  | some v => exact memuncachedGet_repliesOnce key _
  | none =>
    dsimp only
    split_ifs
    · rw [TableProg.exec_bind]
      exact memuncachedGet_repliesOnce key _
    · rw [TableProg.exec_bind]
      exact memuncachedGet_repliesOnce key _

theorem memuncachedDec_repliesOnce (key : List Byte) (offset initial : Option (List Byte)) :
    RepliesOnce (memuncachedDec key offset initial : TableProg R _) :=
  memuncachedUpdate_repliesOnce TableProg.dec key offset initial

theorem memuncachedInc_repliesOnce (key : List Byte) (offset initial : Option (List Byte)) :
    RepliesOnce (memuncachedInc key offset initial : TableProg R _) :=
  memuncachedUpdate_repliesOnce TableProg.inc key offset initial

theorem setValue_repliesOnce (key type : List Byte) (vLength : ℤ) (payload : Option (List Byte)) :
    RepliesOnce (setValue key type vLength payload : TableProg R _) := by
  intro t
  unfold setValue
  rw [TableProg.exec_bind]
  cases putTerminators payload vLength with
  | none => exact Or.inl rfl
  | some payload =>
    right
    dsimp only
    split_ifs <;> exact ⟨_, rfl⟩

theorem setTable_repliesOnce (key type : List Byte) (vLength : ℤ) (payload : Option (List Byte))
    (overwrite : Bool) : RepliesOnce (setTable key type vLength payload overwrite : TableProg R _) := by
  intro t
  unfold setTable
  cases overwrite with
  | true => exact setValue_repliesOnce key type vLength payload t
  | false =>
    simp only [Bool.false_eq_true, if_false, TableProg.exec_bind, TableProg.exec_get]
    cases hashTableGet t key with
    | none => exact setValue_repliesOnce key type vLength payload t
    | some v => exact Or.inr ⟨_, rfl⟩

/-! ## Keys -/

/-- Every call of the program is about the key. -/
def OnKey {α : Type} (key : List Byte) (p : TableProg R α) : Prop :=
  CallTree.Calls (fun c => c.key = key) p

omit [CacheValueReal R] in
theorem onKey_single {c : TableCall R} {key : List Byte} (h : c.key = key) :
    OnKey key (CallTree.single c : TableProg R c.Result) := CallTree.Calls.single h

theorem memuncachedGet_onKey (key : List Byte) : OnKey key (memuncachedGet key : TableProg R _) := by
  refine CallTree.Calls.bind (onKey_single rfl) fun v => ?_
  cases v <;> trivial

theorem memuncachedDel_onKey (key : List Byte) : OnKey key (memuncachedDel key : TableProg R _) := by
  refine CallTree.Calls.bind (memuncachedGet_onKey key) fun writes => ?_
  cases writes with
  | none => trivial
  | some writes => exact CallTree.Calls.bind (onKey_single rfl) fun _ => trivial

theorem memuncachedUpdate_onKey {update : List Byte → R → TableProg R (Option (CacheValue R))}
    (hupdate : ∀ key offset, OnKey key (update key offset)) (key : List Byte)
    (offset initial : Option (List Byte)) :
    OnKey key (memuncachedUpdate update key offset initial) := by
  refine CallTree.Calls.bind (hupdate key _) fun v => ?_
  cases v with
  | some v => exact memuncachedGet_onKey key
  | none =>
    dsimp only
    split_ifs
    · exact CallTree.Calls.bind (onKey_single rfl) fun _ => memuncachedGet_onKey key
    · exact CallTree.Calls.bind (onKey_single rfl) fun _ => memuncachedGet_onKey key

theorem memuncachedDec_onKey (key : List Byte) (offset initial : Option (List Byte)) :
    OnKey key (memuncachedDec key offset initial : TableProg R _) :=
  @memuncachedUpdate_onKey R _ TableProg.dec (fun _ _ => onKey_single rfl) key offset initial

theorem memuncachedInc_onKey (key : List Byte) (offset initial : Option (List Byte)) :
    OnKey key (memuncachedInc key offset initial : TableProg R _) :=
  @memuncachedUpdate_onKey R _ TableProg.inc (fun _ _ => onKey_single rfl) key offset initial

theorem setValue_onKey (key type : List Byte) (vLength : ℤ) (payload : Option (List Byte)) :
    OnKey key (setValue key type vLength payload : TableProg R _) := by
  refine CallTree.Calls.bind (onKey_single rfl) fun _ => ?_
  cases putTerminators payload vLength with
  | none => trivial
  | some payload =>
    dsimp only
    split_ifs
    · exact CallTree.Calls.bind (onKey_single rfl) fun _ => trivial
    · exact CallTree.Calls.bind (onKey_single rfl) fun _ => trivial
    · exact CallTree.Calls.bind (onKey_single rfl) fun _ => trivial
    · trivial

theorem setTable_onKey (key type : List Byte) (vLength : ℤ) (payload : Option (List Byte))
    (overwrite : Bool) : OnKey key (setTable key type vLength payload overwrite : TableProg R _) := by
  unfold setTable
  split_ifs
  · exact setValue_onKey key type vLength payload
  · refine CallTree.Calls.bind (onKey_single rfl) fun v => ?_
    cases v with
    | none => exact setValue_onKey key type vLength payload
    | some v => trivial

/-- A program about one key leaves what `hash_table_get` returns for a key with
    another slot. -/
theorem hashTableGet_onKey {α : Type} {p : TableProg R α} {key key' : List Byte} (hp : OnKey key p)
    {t : HashTable R} (hne : t.index key' ≠ t.index key) :
    (TableProg.exec p t).2.size = t.size ∧
      hashTableGet (TableProg.exec p t).2 key' = hashTableGet t key' := by
  obtain ⟨hsize, hslot⟩ := TableProg.run_frame hp t
  have hindex : (TableProg.exec p t).2.index key' = t.index key' := by
    unfold HashTable.index
    rw [show (TableProg.exec p t).2.size = t.size from hsize]
  refine ⟨hsize, ?_⟩
  unfold hashTableGet
  rw [hindex]
  exact hslot _ hne

end Commands

end Memuncached.Server
