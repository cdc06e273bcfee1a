import Memuncached.C.Text

/-!
# The hash table

Models of `fnv1a` (`fnv.c`) and of the five operations of `hash_table.c` on a
table of `size` slots. A slot holds at most one value; its index is
`fnv1a(key) % size` and nothing compares keys.

* A `cache_value_t` keeps the pointer to the key it was set with, which the
  model reads as the key string. The field is written and never read.
* `TableCall` is a call of one of the five operations, `TableCall.exec` what it
  returns and leaves, and `TableCall.exec_frame` that it acts on one slot.
-/

namespace Memuncached

/-! ## `fnv.c` -/

/-- `FNV_OFFSET_64`. -/
def fnvOffset64 : UInt64 := 14695981039346656037

/-- `FNV_PRIME_64`. -/
def fnvPrime64 : UInt64 := 1099511628211

/-- `fnv1a` (fnv.c, lines 3-13). `*cptr` is a plain, signed `char`: it is sign
    extended before the exclusive or. -/
def fnv1a (string : List Byte) : UInt64 :=
  string.foldl (fun hash c => (hash ^^^ c.toInt8.toInt64.toUInt64) * fnvPrime64) fnvOffset64

/-! ## Values and tables -/

/-- `CACHE_VALUE_DECIMAL`, `CACHE_VALUE_REAL` and `CACHE_VALUE_STRING`. -/
def cacheValueDecimal : UInt8 := 0
def cacheValueReal : UInt8 := 1
def cacheValueString : UInt8 := 2

/-- What the `void* value` of a `cache_value_t` points to. -/
inductive CacheData (R : Type) where
  | null
  | decimal (v : Int64)
  | real (v : R)
  | string (bytes : List Byte)
  deriving DecidableEq, Repr

/-- `cache_value_t`. -/
structure CacheValue (R : Type) where
  key : List Byte
  type : UInt8
  value : CacheData R
  length : ℕ
  deriving DecidableEq, Repr

/-- `hash_table_t`: the array of `size` slots, at least one, and the count. -/
structure HashTable (R : Type) where
  table : List (Option (CacheValue R))
  count : ℕ
  size : ℕ
  length_table : table.length = size
  size_pos : 0 < size

namespace HashTable

variable {R : Type}

@[ext] theorem ext {t t' : HashTable R} (htable : t.table = t'.table) (hcount : t.count = t'.count) :
    t = t' := by
  obtain ⟨table, count, size, hlen, hpos⟩ := t
  obtain ⟨table', count', size', hlen', hpos'⟩ := t'
  dsimp only at htable hcount
  subst htable hcount
  have hsize : size = size' := hlen.symm.trans hlen'
  subst hsize
  rfl

/-- `fnv1a(key) % table->size`. -/
def index (t : HashTable R) (key : List Byte) : ℕ := (fnv1a key).toNat % t.size

/-- `table->table[index]`. -/
def slot (t : HashTable R) (i : ℕ) : Option (CacheValue R) := t.table.getD i none

/-- Write a slot and the count. -/
def setSlot (t : HashTable R) (i : ℕ) (v : Option (CacheValue R)) (count : ℕ) : HashTable R where
  table := t.table.set i v
  count := count
  size := t.size
  length_table := by rw [List.length_set, t.length_table]
  size_pos := t.size_pos

theorem index_lt (t : HashTable R) (key : List Byte) : t.index key < t.size :=
  Nat.mod_lt _ t.size_pos

@[simp] theorem size_setSlot (t : HashTable R) (i : ℕ) (v : Option (CacheValue R)) (count : ℕ) :
    (t.setSlot i v count).size = t.size := rfl

@[simp] theorem count_setSlot (t : HashTable R) (i : ℕ) (v : Option (CacheValue R)) (count : ℕ) :
    (t.setSlot i v count).count = count := rfl

@[simp] theorem index_setSlot (t : HashTable R) (i : ℕ) (v : Option (CacheValue R)) (count : ℕ)
    (key : List Byte) : (t.setSlot i v count).index key = t.index key := rfl

theorem slot_setSlot_self (t : HashTable R) {i : ℕ} (hi : i < t.size)
    (v : Option (CacheValue R)) (count : ℕ) : (t.setSlot i v count).slot i = v := by
  have hlen : i < t.table.length := by rw [t.length_table]; exact hi
  simp [slot, setSlot, List.getD_eq_getElem?_getD, hlen]

theorem slot_setSlot_ne (t : HashTable R) {i j : ℕ} (hij : i ≠ j)
    (v : Option (CacheValue R)) (count : ℕ) : (t.setSlot i v count).slot j = t.slot j := by
  simp [slot, setSlot, List.getD_eq_getElem?_getD, List.getElem?_set_ne hij]

/-- Two tables of one size with the same slots and count are equal. -/
theorem ext_slot {t t' : HashTable R} (hsize : t.size = t'.size)
    (hslot : ∀ i < t.size, t.slot i = t'.slot i) (hcount : t.count = t'.count) : t = t' := by
  have hlen : t.table.length = t'.table.length := by rw [t.length_table, t'.length_table, hsize]
  refine HashTable.ext (List.ext_getElem hlen fun i hi hi' => ?_) hcount
  have h := hslot i (by rw [← t.length_table]; exact hi)
  simpa [slot, List.getD_eq_getElem?_getD, List.getElem?_eq_getElem hi,
    List.getElem?_eq_getElem hi'] using h

theorem setSlot_self (t : HashTable R) {i : ℕ} (hi : i < t.size) :
    t.setSlot i (t.slot i) t.count = t := by
  refine ext_slot rfl (fun j _ => ?_) rfl
  by_cases hij : i = j
  · subst hij
    exact slot_setSlot_self t hi _ _
  · exact slot_setSlot_ne t hij _ _

end HashTable

/-! ## The operations -/

section Operations

variable {R : Type} [CacheValueReal R]

/-- `hash_table_create` (hash_table.c, lines 3-12), for a positive size. -/
def hashTableCreate (R : Type) (size : ℕ) (hsize : 0 < size) : HashTable R where
  table := List.replicate size none
  count := 0
  size := size
  length_table := List.length_replicate
  size_pos := hsize

/-- `*(cache_value_decimal*)value`. Reading a value of another kind does not
    occur (`CacheValue.WellFormed`); it gives 0 here. -/
def CacheData.asDecimal : CacheData R → Int64
  | .decimal v => v
  | _ => 0

/-- `*(cache_value_real*)value`, see `CacheData.asDecimal`. -/
def CacheData.asReal : CacheData R → R
  | .real v => v
  | _ => CacheValueReal.ofInt 0

/-- The bytes a `cache_value_string` points to, see `CacheData.asDecimal`. -/
def CacheData.asString : CacheData R → List Byte
  | .string bytes => bytes
  | _ => []

/-- The copy of `value` that `hash_table_set` keeps (hash_table.c, lines 45-54).
    For a type that is none of the three the source leaves the pointer NULL or
    freed. -/
def CacheData.copyAs (value : CacheData R) (type : UInt8) (size : ℕ) : CacheData R :=
  if type = cacheValueDecimal then .decimal value.asDecimal
  else if type = cacheValueReal then .real value.asReal
  else if type = cacheValueString then .string (value.asString.take size)
  else .null

/-- `hash_table_set` (hash_table.c, lines 27-57). -/
def hashTableSet (t : HashTable R) (key : List Byte) (type : UInt8) (value : CacheData R)
    (size : ℕ) : Bool × HashTable R :=
  let index := t.index key
  let count := if (t.slot index).isNone then t.count + 1 else t.count
  (true, t.setSlot index
    (some { key := key, type := type, value := value.copyAs type size, length := size }) count)

/-- `hash_table_get` (hash_table.c, lines 59-64). -/
def hashTableGet (t : HashTable R) (key : List Byte) : Option (CacheValue R) :=
  t.slot (t.index key)

/-- A value with the operation applied to it (hash_table.c, lines 78-84 and
    101-107). -/
def CacheValue.update (op : R → R → R) (value : CacheValue R) (offset : R) : CacheValue R :=
  { value with
    value :=
      if value.type = cacheValueDecimal then
        .decimal (CacheValueReal.toInt64
          (op (CacheValueReal.ofInt value.value.asDecimal.toInt) offset))
      else if value.type = cacheValueReal then .real (op value.value.asReal offset)
      else value.value }

/-- The body of `hash_table_inc` and `hash_table_dec` (hash_table.c, lines
    66-110), which differ in the operation applied to the two `double`s. -/
def hashTableUpdate (op : R → R → R) (t : HashTable R) (key : List Byte) (offset : R) :
    Option (CacheValue R) × HashTable R :=
  match hashTableGet t key with
  | none => (none, t)
  | some value =>
    if value.type = cacheValueString then (none, t)
    else
      let value := value.update op offset
      (some value, t.setSlot (t.index key) (some value) t.count)

/-- `hash_table_inc` (hash_table.c, lines 66-87). -/
def hashTableInc (t : HashTable R) (key : List Byte) (offset : R) :
    Option (CacheValue R) × HashTable R := hashTableUpdate CacheValueReal.add t key offset

/-- `hash_table_dec` (hash_table.c, lines 89-110). -/
def hashTableDec (t : HashTable R) (key : List Byte) (offset : R) :
    Option (CacheValue R) × HashTable R := hashTableUpdate CacheValueReal.sub t key offset

/-- `hash_table_del` (hash_table.c, lines 112-127). -/
def hashTableDel (t : HashTable R) (key : List Byte) : Bool × HashTable R :=
  match t.slot (t.index key) with
  | none => (false, t)
  | some _ => (true, t.setSlot (t.index key) none (t.count - 1))

end Operations

end Memuncached
