import Memuncached.Server.Answer

/-!
# INC and DEC

What INC and DEC leave under their key (`counterValue`), as a function of what
was there.

* `insertsOnlyWhenAbsent_iff`: INITIAL replaces a value exactly when that value
  is a string, for which `hash_table_inc` and `hash_table_dec` return NULL too.
-/

namespace Memuncached.Server

/-- INC and DEC. -/
inductive CounterOp where
  | inc
  | dec
  deriving DecidableEq, Repr

section Counter

variable {R : Type} [CacheValueReal R]

/-- The operation on two `double`s. -/
def CounterOp.apply : CounterOp → R → R → R
  | .inc => CacheValueReal.add
  | .dec => CacheValueReal.sub

/-- `memuncached_inc` and `memuncached_dec`. -/
def CounterOp.prog : CounterOp → List Byte → Option (List Byte) → Option (List Byte) →
    TableProg R (Option (List (List Byte)))
  | .inc => memuncachedInc
  | .dec => memuncachedDec

/-- The table that the command leaves. -/
def CounterOp.exec (op : CounterOp) (key : List Byte) (offset initial : Option (List Byte))
    (t : HashTable R) : HashTable R := (TableProg.exec (op.prog key offset initial) t).2

/-- The type of the value made from INITIAL. -/
def initialType (initial : Option (List Byte)) : UInt8 :=
  if initialIsDecimal initial then cacheValueDecimal else cacheValueReal

/-- The value made from INITIAL. -/
def initialData (initial : Option (List Byte)) : CacheData R :=
  if initialIsDecimal initial then .decimal (initialD initial) else .real (initialR initial)

def initialValue (key : List Byte) (initial : Option (List Byte)) : CacheValue R where
  key := key
  type := initialType initial
  value := initialData initial
  length := 0

theorem initialType_ne_string (initial : Option (List Byte)) :
    initialType initial ≠ cacheValueString := by
  unfold initialType
  split_ifs <;> decide

/-- What the command leaves under its key when it finds `v` there. -/
def counterValue (op : CounterOp) (key : List Byte) (offset initial : Option (List Byte)) :
    Option (CacheValue R) → CacheValue R
  | none => initialValue key initial
  | some v =>
    if v.type = cacheValueString then initialValue key initial
    else v.update op.apply (vOffset offset)

/-- INITIAL is set as the type that its text looks like. -/
theorem exec_setInitial (key : List Byte) (initial : Option (List Byte)) (t : HashTable R) :
    (TableProg.exec
      (if initialIsDecimal initial then do
          let _ ← TableProg.set key cacheValueDecimal (.decimal (initialD initial)) 0
          memuncachedGet key
        else do
          let _ ← TableProg.set key cacheValueReal (.real (initialR initial)) 0
          memuncachedGet key) t).2 =
      (hashTableSet t key (initialType initial) (initialData initial) 0).2 := by
  unfold initialType initialData
  split_ifs
  · simp only [TableProg.exec_bind, TableProg.exec_set, exec_memuncachedGet]
  · simp only [TableProg.exec_bind, TableProg.exec_set, exec_memuncachedGet]

theorem hashTableGet_setInitial (key : List Byte) (initial : Option (List Byte)) (t : HashTable R) :
    hashTableGet (hashTableSet t key (initialType initial) (initialData initial) 0).2 key =
      some (initialValue key initial) := by
  rw [hashTableGet_set]
  unfold initialValue initialType initialData
  split_ifs <;> rfl

/-- `memuncached_update` through either table operation. -/
theorem exec_memuncachedUpdate {apply : R → R → R}
    {update : List Byte → R → TableProg R (Option (CacheValue R))}
    (hupdate : ∀ key offset t, TableProg.exec (update key offset) t =
      hashTableUpdate apply t key offset)
    (key : List Byte) (offset initial : Option (List Byte)) (t : HashTable R) :
    (TableProg.exec (memuncachedUpdate update key offset initial) t).2 =
      match hashTableUpdate apply t key (vOffset offset) with
      | (some _, t') => t'
      | (none, t') => (hashTableSet t' key (initialType initial) (initialData initial) 0).2 := by
  unfold memuncachedUpdate
  rw [TableProg.exec_bind, hupdate]
  generalize hashTableUpdate apply t key (vOffset offset) = r
  obtain ⟨v, t'⟩ := r
  cases v with
  | some v => simp only [exec_memuncachedGet]
  | none => exact exec_setInitial key initial t'

theorem CounterOp.exec_eq (op : CounterOp) (key : List Byte) (offset initial : Option (List Byte))
    (t : HashTable R) :
    op.exec key offset initial t =
      match hashTableUpdate op.apply t key (vOffset offset) with
      | (some _, t') => t'
      | (none, t') => (hashTableSet t' key (initialType initial) (initialData initial) 0).2 := by
  cases op with
  | inc => exact exec_memuncachedUpdate (fun _ _ _ => rfl) key offset initial t
  | dec => exact exec_memuncachedUpdate (fun _ _ _ => rfl) key offset initial t

/-- INC and DEC leave `counterValue` under their key. -/
theorem hashTableGet_counter (op : CounterOp) (key : List Byte)
    (offset initial : Option (List Byte)) (t : HashTable R) :
    hashTableGet (op.exec key offset initial t) key =
      some (counterValue op key offset initial (hashTableGet t key)) := by
  rw [op.exec_eq]
  unfold hashTableUpdate
  cases hashTableGet t key with
  | none => exact hashTableGet_setInitial key initial t
  | some v =>
    dsimp only [counterValue]
    split_ifs with hs
    · exact hashTableGet_setInitial key initial t
    · exact t.slot_setSlot_self (t.index_lt key) _ _

/-! ## INITIAL and the value that is there -/

/-- INITIAL is stored under a key without a value, only; a number is changed in
    place and a string is left as it is. -/
structure InsertsOnlyWhenAbsent (op : CounterOp) (t : HashTable R) (key : List Byte)
    (offset initial : Option (List Byte)) : Prop where
  absent : hashTableGet t key = none →
    hashTableGet (op.exec key offset initial t) key = some (initialValue key initial)
  number : ∀ v, hashTableGet t key = some v → v.type ≠ cacheValueString →
    op.exec key offset initial t =
      t.setSlot (t.index key)
        (some { v with value := (v.update op.apply (vOffset offset)).value }) t.count
  string : ∀ v, hashTableGet t key = some v → v.type = cacheValueString →
    hashTableGet (op.exec key offset initial t) key = some v

/-- A number is changed in its slot. -/
theorem CounterOp.exec_number (op : CounterOp) {t : HashTable R} {key : List Byte}
    {v : CacheValue R} (hv : hashTableGet t key = some v) (hs : v.type ≠ cacheValueString)
    (offset initial : Option (List Byte)) :
    op.exec key offset initial t =
      t.setSlot (t.index key) (some (v.update op.apply (vOffset offset))) t.count := by
  rw [op.exec_eq]
  unfold hashTableUpdate
  rw [hv]
  dsimp only
  rw [if_neg hs]

/-- INC and DEC keep INITIAL for absent keys unless the key has a string. -/
theorem insertsOnlyWhenAbsent_iff (op : CounterOp) (t : HashTable R) (key : List Byte)
    (offset initial : Option (List Byte)) :
    InsertsOnlyWhenAbsent op t key offset initial ↔
      ∀ v, hashTableGet t key = some v → v.type ≠ cacheValueString := by
  have hget := hashTableGet_counter op key offset initial t
  constructor
  · intro h v hv hs
    have hkept := h.string v hv hs
    rw [hget, hv, Option.some.injEq, counterValue, if_pos hs] at hkept
    apply initialType_ne_string initial
    rw [← hs, ← hkept]
    rfl
  · intro h
    refine ⟨fun hnone => ?_, fun v hv hs => ?_, fun v hv hs => ?_⟩
    · rw [hget, hnone]
      rfl
    · exact op.exec_number hv hs offset initial
    · exact absurd hs (h v hv)

end Counter

/-- A table with the string `x` under `a`. -/
def tableWithString : HashTable ℚ :=
  (hashTableSet (hashTableCreate ℚ 1 Nat.one_pos) (ascii "a") cacheValueString
    (.string (ascii "x")) 1).2

theorem tableWithString_reachable : Reachable tableWithString :=
  Reachable.call (.set (ascii "a") cacheValueString (.string (ascii "x")) 1)
    (Reachable.create 1 Nat.one_pos) (Or.inr (Or.inr ⟨rfl, by decide, by decide⟩))

/-- INC without OFFSET and INITIAL puts the number 1 in the place of the string. -/
theorem inc_replaces_string :
    Reachable tableWithString ∧
      ¬ InsertsOnlyWhenAbsent .inc tableWithString (ascii "a") none none := by
  refine ⟨tableWithString_reachable, fun h => ?_⟩
  have hkept := h.string _ rfl rfl
  rw [hashTableGet_counter] at hkept
  exact absurd hkept (by decide)

end Memuncached.Server
