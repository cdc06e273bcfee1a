import Memuncached.Lib.Separation
import Memuncached.Table.Calls

/-!
# The hash table in memory

The functions of `hash_table.c` on a heap, with the blocks they allocate and free:
the `hash_table_t`, its array of pointers, a `cache_value_t` for each occupied slot
and the block its `value` points to. `call` is a call of any of them on the table
at an address.
-/

namespace Memuncached.OnHeap

open Separation Assertion

/-! ## Blocks -/

/-- `cache_value_t` in memory; `value` is a pointer, `none` for NULL. -/
structure ValueBlock where
  key : List Byte
  type : UInt8
  value : Option ℕ
  length : ℕ

/-- `hash_table_t` in memory; `table` points to the array. -/
structure TableBlock where
  table : ℕ
  count : ℕ
  size : ℕ

inductive Block (R : Type) where
  | table (t : TableBlock)
  | array (slots : List (Option ℕ))
  | value (v : ValueBlock)
  | data (d : CacheData R)

/-- What the program finds in memory that `malloc` returns. -/
structure Found (R : Type) where
  table : TableBlock
  value : ValueBlock
  data : CacheData R

section Functions

variable {R : Type}

namespace Block

def table? : Block R → Option TableBlock
  | table t => some t
  | _ => none

/-- `array[i]`; none outside the array. -/
def slot? (i : ℕ) : Block R → Option (Option ℕ)
  | array slots => slots[i]?
  | _ => none

def value? : Block R → Option ValueBlock
  | value v => some v
  | _ => none

def data? : Block R → Option (CacheData R)
  | data d => some d
  | _ => none

def onTable (f : TableBlock → TableBlock) : Block R → Option (Block R)
  | table t => some (table (f t))
  | _ => none

/-- `array[i] = p`. -/
def setSlot (i : ℕ) (p : Option ℕ) : Block R → Option (Block R)
  | array slots => if i < slots.length then some (array (slots.set i p)) else none
  | _ => none

def onValue (f : ValueBlock → ValueBlock) : Block R → Option (Block R)
  | value v => some (value (f v))
  | _ => none

def onData (f : CacheData R → CacheData R) : Block R → Option (Block R)
  | data d => some (data (f d))
  | _ => none

end Block

/-- `*p`, the address in a pointer; NULL faults. -/
def deref : Option ℕ → HeapM (Block R) ℕ
  | none => fun _ => none
  | some p => pure p

/-- `free(p)`, which does nothing for NULL. -/
def freePointer (p : Option ℕ) : HeapM (Block R) Unit :=
  match p with
  | none => pure ()
  | some p => free p

/-! ## `hash_table_create` and `hash_table_destroy` -/

/-- `hash_table_create` (hash_table.c, lines 3-12). -/
def hashTableCreate (found : Found R) (size : ℕ) : HeapM (Block R) ℕ := do
  let table ← malloc (.table found.table)
  let array ← malloc (.array (List.replicate size none))
  update (Block.onTable fun t => { t with table := array }) table
  update (Block.onTable fun t => { t with size := size }) table
  update (Block.onTable fun t => { t with count := 0 }) table
  pure table

/-- The body of the loop of `hash_table_destroy` (hash_table.c, lines 17-20). -/
def freeSlot (table i : ℕ) : HeapM (Block R) Unit := do
  let t ← load Block.table? table
  match ← load (Block.slot? i) t.table with
  | none => pure ()
  | some p =>
    let v ← load Block.value? p
    freePointer v.value
    free p

/-- `hash_table_destroy` (hash_table.c, lines 14-25). -/
def hashTableDestroy (table : ℕ) : HeapM (Block R) Unit := do
  let t ← load Block.table? table
  (List.range t.size).forM (freeSlot table)
  free t.table
  free table

/-! ## `hash_table_set` -/

/-- A `cache_value_t` for an empty slot (hash_table.c, lines 31-35); the pointer
    that the slot then holds. -/
def makeValue (found : Found R) (table i : ℕ) : HeapM (Block R) ℕ := do
  let t ← load Block.table? table
  match ← load (Block.slot? i) t.table with
  | some p => pure p
  | none =>
    let p ← malloc (.value found.value)
    update (Block.setSlot i (some p)) t.table
    update (Block.onValue fun v => { v with value := none }) p
    update (Block.onTable fun t => { t with count := t.count + 1 }) table
    pure p

/-- Free the old value, if there is one (hash_table.c, lines 41-43). -/
def freeValue (p : ℕ) : HeapM (Block R) Unit := do
  let v ← load Block.value? p
  freePointer v.value

/-- Allocate a block for a value and write it. -/
def storeData (found : Found R) (p : ℕ) (data : CacheData R) : HeapM (Block R) Unit := do
  let q ← malloc (.data found.data)
  update (Block.onValue fun v => { v with value := some q }) p
  update (Block.onData fun _ => data) q

variable [CacheValueReal R]

/-- The copy of the value (hash_table.c, lines 45-54). -/
def copyValue (found : Found R) (p : ℕ) (type : UInt8) (value : CacheData R) (size : ℕ) :
    HeapM (Block R) Unit :=
  if type = cacheValueDecimal then storeData found p (.decimal value.asDecimal)
  else if type = cacheValueReal then storeData found p (.real value.asReal)
  else if type = cacheValueString then storeData found p (.string (value.asString.take size))
  else pure ()

/-- The value in its block (hash_table.c, lines 37-54). -/
def writeValue (found : Found R) (p : ℕ) (key : List Byte) (type : UInt8) (value : CacheData R)
    (size : ℕ) : HeapM (Block R) Unit := do
  update (Block.onValue fun v => { v with key := key }) p
  update (Block.onValue fun v => { v with type := type }) p
  update (Block.onValue fun v => { v with length := size }) p
  freeValue p
  copyValue found p type value size

/-- `hash_table_set` (hash_table.c, lines 27-57). -/
def hashTableSet (found : Found R) (table : ℕ) (key : List Byte) (type : UInt8)
    (value : CacheData R) (size : ℕ) : HeapM (Block R) Bool := do
  let t ← load Block.table? table
  let p ← makeValue found table ((fnv1a key).toNat % t.size)
  writeValue found p key type value size
  pure true

/-! ## The other functions -/

omit [CacheValueReal R] in
/-- `hash_table_get` (hash_table.c, lines 59-64). -/
def hashTableGet (table : ℕ) (key : List Byte) : HeapM (Block R) (Option ℕ) := do
  let t ← load Block.table? table
  load (Block.slot? ((fnv1a key).toNat % t.size)) t.table

/-- A number with the operation applied to it, in place (hash_table.c, lines
    78-84 and 101-107). -/
def updateValue (op : R → R → R) (p : ℕ) (offset : R) : HeapM (Block R) Unit := do
  let v ← load Block.value? p
  if v.type = cacheValueDecimal then
    let q ← deref v.value
    update (Block.onData fun d =>
      .decimal (CacheValueReal.toInt64 (op (CacheValueReal.ofInt d.asDecimal.toInt) offset))) q
  else if v.type = cacheValueReal then
    let q ← deref v.value
    update (Block.onData fun d => .real (op d.asReal offset)) q
  else pure ()

/-- The body of `hash_table_inc` and `hash_table_dec` (hash_table.c, lines
    66-110). -/
def hashTableUpdate (op : R → R → R) (table : ℕ) (key : List Byte) (offset : R) :
    HeapM (Block R) (Option ℕ) := do
  match ← hashTableGet table key with
  | none => pure none
  | some p =>
    let v ← load Block.value? p
    if v.type = cacheValueString then pure none
    else
      updateValue op p offset
      pure (some p)

/-- `hash_table_inc` (hash_table.c, lines 66-87). -/
def hashTableInc (table : ℕ) (key : List Byte) (offset : R) : HeapM (Block R) (Option ℕ) :=
  hashTableUpdate CacheValueReal.add table key offset

/-- `hash_table_dec` (hash_table.c, lines 89-110). -/
def hashTableDec (table : ℕ) (key : List Byte) (offset : R) : HeapM (Block R) (Option ℕ) :=
  hashTableUpdate CacheValueReal.sub table key offset

omit [CacheValueReal R] in
/-- `hash_table_del` (hash_table.c, lines 112-127). -/
def hashTableDel (table : ℕ) (key : List Byte) : HeapM (Block R) Bool := do
  let t ← load Block.table? table
  let index := (fnv1a key).toNat % t.size
  match ← load (Block.slot? index) t.table with
  | none => pure false
  | some p =>
    let v ← load Block.value? p
    freePointer v.value
    free p
    update (Block.setSlot index none) t.table
    update (Block.onTable fun t => { t with count := t.count - 1 }) table
    pure true

/-! ## Calls -/

/-- The type is none of the three. -/
def UnknownType (type : UInt8) : Prop :=
  type ≠ cacheValueDecimal ∧ type ≠ cacheValueReal ∧ type ≠ cacheValueString

instance (type : UInt8) : Decidable (UnknownType type) := inferInstanceAs (Decidable (_ ∧ _))

omit [CacheValueReal R] in
/-- What a caller reads through the pointer it got: the value, and by its type
    what that points to (as `memuncached_get` does, connection.c, lines 384-416). -/
def readValue (p : Option ℕ) : HeapM (Block R) (Option (CacheValue R)) :=
  match p with
  | none => pure none
  | some p => do
    let v ← load Block.value? p
    let data ←
      if UnknownType v.type then pure .null else deref v.value >>= load Block.data?
    pure (some { key := v.key, type := v.type, value := data, length := v.length })

/-- A call on the table at `table`, and what its caller reads through a pointer
    it returns. -/
def call (found : Found R) (table : ℕ) : (c : TableCall R) → HeapM (Block R) c.Result
  | .set key type value size => hashTableSet found table key type value size
  | .get key => hashTableGet table key >>= readValue
  | .inc key offset => hashTableInc table key offset >>= readValue
  | .dec key offset => hashTableDec table key offset >>= readValue
  | .del key => hashTableDel table key

end Functions

end Memuncached.OnHeap
