import Memuncached.Client.IncDec
import Memuncached.Client.Stats
import Memuncached.Server.Respond

/-!
# The calls of the library

A call of `libmemuncached.c` on an open connection with its arguments: the
request it prints and what it makes of the response; and next to it the same
call on a table at hand.

* `Invocation.request`, `Invocation.finish`: the two halves of a call, before
  and behind `memuncached_recv`.
* `Invocation.exec`: the call on the table.
-/

namespace Memuncached.Client

open Server

/-! ## The library -/

/-- `memuncached_ver_result_t`. -/
structure VerResult where
  version : List Byte
  deriving DecidableEq, Repr

section Library

variable {R : Type} [CacheValueReal R]

/-- What `__memuncached_inc` and `__memuncached_dec` return behind
    `memuncached_recv` (libmemuncached.c, lines 296-313 and 351-368), with the
    client they leave; `unset` is the zeroed union. -/
def numberResult (ok : Bool) (client : MemuncachedClient) :
    Option ((Bool × ValueResult R) × MemuncachedClient) :=
  if (ok && client.response.code == 200) = true then do
    let client ← client.terminateBody
    let type := client.response.bodyType
    if type = 0 then
      let text ← client.textAt client.response.body
      return ((true, { type := type, data := .decimal (atoll text) }), client)
    else if type = 1 then
      let text ← client.textAt client.response.body
      return ((true, { type := type, data := .real (CacheValueReal.atof text) }), client)
    else return ((false, { type := type, data := .unset }), client)
  else some ((false, { type := 0, data := .unset }), client)

/-- What `memuncached_ver` returns behind `memuncached_recv` (libmemuncached.c,
    lines 249-258); `none` when `strcpy` leaves the five bytes of `version`. -/
def verResult (ok : Bool) (client : MemuncachedClient) :
    Option ((Bool × VerResult) × MemuncachedClient) :=
  if (ok && client.response.code == 200) = true then do
    let client ← client.terminateBody
    let text ← client.textAt client.response.body
    if text.length < 5 then
      return ((true, { version := text ++ List.replicate (5 - text.length) 0 }), client)
    else none
  else some ((false, { version := List.replicate 5 0 }), client)

/-- A call with its arguments. -/
inductive Invocation (R : Type) where
  | stt
  | ver
  | inc (key : List Byte) (args : OptArgs R)
  | dec (key : List Byte) (args : OptArgs R)
  | del (key : List Byte)
  | get (key : List Byte)
  | set (key : List Byte) (data : StoreData R)
  | add (key : List Byte) (data : StoreData R)

namespace Invocation

/-- The `bool` a call returns, and its `result`. -/
@[reducible] def Result : Invocation R → Type
  | stt => Bool × SttResult
  | ver => Bool × VerResult
  | inc _ _ => Bool × ValueResult R
  | dec _ _ => Bool × ValueResult R
  | del _ => Bool × Option (ValueResult R)
  | get _ => Bool × Option (ValueResult R)
  | set _ _ => Bool
  | add _ _ => Bool

/-- What a call prints, if anything; `none` when it reads an argument with the
    wrong type. -/
def request [DecidableEq R] (defaultDouble : R) : Invocation R → Option (Option (List Byte))
  | stt => some (some (ascii "STT" ++ crlf))
  | ver => some (some (ascii "VER" ++ crlf))
  | inc key args => args.inc defaultDouble key
  | dec key args => args.dec defaultDouble key
  | del key => some (some (keyLine (ascii "DEL") key))
  | get key => some (some (keyLine (ascii "GET") key))
  | set key data => some (some (storeLines (ascii "SET") key data))
  | add key data => some (some (storeLines (ascii "ADD") key data))

/-- What a call returns when `memuncached_recv` has returned true, and the
    client it leaves. `memuncached_del` does with the response what
    `memuncached_get` does. -/
def finish : (inv : Invocation R) → MemuncachedClient → Option (inv.Result × MemuncachedClient)
  | stt, client => (sttResult true client).map fun result => (result, client)
  | ver, client => verResult true client
  | inc _ _, client => numberResult true client
  | dec _ _, client => numberResult true client
  | del _, client => (getResult true client).map fun result => (result, client)
  | get _, client => (getResult true client).map fun result => (result, client)
  | set _ _, client => some (setSuccess true client, client)
  | add _ _, client => some (setSuccess true client, client)

end Invocation

end Library

/-! ## The same on a table -/

section Local

variable {R : Type} [CacheValueReal R]

/-- A number comes back as it is printed. -/
def readBack : CacheData R → ResultData R
  | .decimal v => .decimal v
  | .real v => .real (CacheValueReal.atof (CacheValueReal.fmtLf v))
  | .string bytes => .string bytes
  | .null => .unset

def resultOf (v : CacheValue R) : ValueResult R where
  type := Int8.ofInt v.type.toNat
  data := readBack v.value

/-- The result of GET and DEL. -/
def foundResult : Option (CacheValue R) → Bool × Option (ValueResult R)
  | none => (false, none)
  | some v => (true, some (resultOf v))

/-- The result of INC and DEC. -/
def countedResult : Option (CacheValue R) → Bool × ValueResult R
  | none => (false, { type := 0, data := .unset })
  | some v => (true, resultOf v)

namespace StoreData

/-- The value that SET stores under the key. -/
def value (key : List Byte) : StoreData R → CacheValue R
  | decimal v => { key := key, type := cacheValueDecimal, value := .decimal v, length := 0 }
  | real v =>
    { key := key, type := cacheValueReal
      value := .real (CacheValueReal.atof (CacheValueReal.fmtLf v)), length := 0 }
  | string bytes =>
    { key := key, type := cacheValueString, value := .string bytes, length := bytes.length }

/-- The table with the value stored. -/
def storeIn (key : List Byte) (data : StoreData R) (table : HashTable R) : HashTable R :=
  (hashTableSet table key (data.value key).type (data.value key).value (data.value key).length).2

end StoreData

/-- An OFFSET or INITIAL that `handle_command` refuses. -/
def Refused (texts : List (List Byte)) : Prop :=
  (∃ offset ∈ texts[0]?, (offset.headD 0 == 45 || !isRealString offset) = true) ∨
    ∃ initial ∈ texts[1]?, isRealString initial = false

instance (texts : List (List Byte)) : Decidable (Refused texts) :=
  inferInstanceAs (Decidable (_ ∨ _))

/-- A counter command on the table. -/
def countOn (command : List Byte → Option (List Byte) → Option (List Byte) →
      TableProg R (Option (List (List Byte))))
    (key : List Byte) (texts : List (List Byte)) (table : HashTable R) :
    (Bool × ValueResult R) × HashTable R :=
  if Refused texts then (countedResult none, table)
  else
    let table := (TableProg.exec (command key texts[0]? texts[1]?) table).2
    (countedResult (hashTableGet table key), table)

/-- The call on a table, with `clientCount` clients. -/
def Invocation.exec (clientCount : ℕ) :
    (inv : Invocation R) → HashTable R → inv.Result × HashTable R
  | stt, table => ((true, { clientCount := clientCount, keyCount := table.count }), table)
  | ver, table => ((true, { version := ascii "1.0" ++ [0, 0] }), table)
  | inc key args, table => countOn memuncachedInc key args.texts table
  | dec key args, table => countOn memuncachedDec key args.texts table
  | del key, table => (foundResult (hashTableGet table key), (hashTableDel table key).2)
  | get key, table => (foundResult (hashTableGet table key), table)
  | set key data, table => (true, data.storeIn key table)
  | add key data, table =>
    if (hashTableGet table key).isNone then (true, data.storeIn key table) else (false, table)

end Local

end Memuncached.Client
