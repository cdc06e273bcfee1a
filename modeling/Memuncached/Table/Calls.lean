import Memuncached.Lib.CallTree
import Memuncached.Table.HashTable

/-!
# Calls of the table

The five operations as calls of a program (`TableCall`, `TableProg`), and what
every call does:

* `tableLocality`: a call acts on slot `fnv1a(key) % size` only, through
  `TableCall.execAt`, and keeps the count equal to the number of occupied
  slots (`HashTable.CountOk`).
* `Reachable.wellFormed`: in a table made by `hash_table_create` and used
  through the five operations every value is of the kind its type says.
-/

namespace Memuncached

/-- A call of one of the five operations. -/
inductive TableCall (R : Type) where
  | set (key : List Byte) (type : UInt8) (value : CacheData R) (size : ℕ)
  | get (key : List Byte)
  | inc (key : List Byte) (offset : R)
  | dec (key : List Byte) (offset : R)
  | del (key : List Byte)

namespace TableCall

variable {R : Type}

/-- The key a call is about. -/
def key : TableCall R → List Byte
  | set key _ _ _ => key
  | get key => key
  | inc key _ => key
  | dec key _ => key
  | del key => key

/-- What a call returns: a pointer to a value, or a `bool`. -/
@[reducible] def Result : TableCall R → Type
  | set _ _ _ _ => Bool
  | get _ => Option (CacheValue R)
  | inc _ _ => Option (CacheValue R)
  | dec _ _ => Option (CacheValue R)
  | del _ => Bool

variable [CacheValueReal R]

/-- Execute a call. -/
def exec : (c : TableCall R) → HashTable R → c.Result × HashTable R
  | set key type value size, t => hashTableSet t key type value size
  | get key, t => (hashTableGet t key, t)
  | inc key offset, t => hashTableInc t key offset
  | dec key offset, t => hashTableDec t key offset
  | del key, t => hashTableDel t key

end TableCall

/-- A program over the table. -/
abbrev TableProg (R : Type) := CallTree (TableCall.Result (R := R))

/-! ## Locality -/

namespace HashTable

variable {R : Type}

/-- The number of occupied slots. -/
def occupied (t : HashTable R) : ℕ := t.table.countP Option.isSome

/-- The count is the number of occupied slots. -/
def CountOk (t : HashTable R) : Prop := t.count = t.occupied

theorem slot_eq_getElem (t : HashTable R) {i : ℕ} (hi : i < t.table.length) :
    t.slot i = t.table[i] := by
  rw [slot, List.getD_eq_getElem?_getD, List.getElem?_eq_getElem hi, Option.getD_some]

theorem occupied_setSlot (t : HashTable R) {i : ℕ} (hi : i < t.size) (v : Option (CacheValue R))
    (count : ℕ) :
    (t.setSlot i v count).occupied =
      t.occupied - (t.slot i).isSome.toNat + v.isSome.toNat := by
  have hlen : i < t.table.length := by rw [t.length_table]; exact hi
  have hset := List.countP_set (p := Option.isSome) (a := v) hlen
  rw [slot_eq_getElem t hlen]
  unfold occupied setSlot
  rw [hset]
  cases t.table[i].isSome <;> cases v.isSome <;> rfl

theorem occupied_pos (t : HashTable R) {i : ℕ} (hi : i < t.size) (h : (t.slot i).isSome) :
    0 < t.occupied := by
  have hlen : i < t.table.length := by rw [t.length_table]; exact hi
  rw [slot_eq_getElem t hlen] at h
  exact List.countP_pos_iff.mpr ⟨t.table[i], List.getElem_mem hlen, h⟩

/-- Two tables with equal slots have equally many occupied ones. -/
theorem occupied_congr {t t' : HashTable R} (hsize : t.size = t'.size)
    (hslot : ∀ i < t.size, t.slot i = t'.slot i) : t.occupied = t'.occupied := by
  have hlen : t.table.length = t'.table.length := by rw [t.length_table, t'.length_table, hsize]
  have htable : t.table = t'.table := by
    refine List.ext_getElem hlen fun i hi hi' => ?_
    rw [← slot_eq_getElem t hi, ← slot_eq_getElem t' hi']
    exact hslot i (by rw [← t.length_table]; exact hi)
  unfold occupied
  rw [htable]

end HashTable

namespace TableCall

variable {R : Type} [CacheValueReal R]

/-- `hash_table_inc` and `hash_table_dec` on the contents of a slot. -/
def updateAt (op : R → R → R) (offset : R) :
    Option (CacheValue R) → Option (CacheValue R) × Option (CacheValue R)
  | none => (none, none)
  | some value =>
    if value.type = cacheValueString then (none, some value)
    else (some (value.update op offset), some (value.update op offset))

/-- A call on the contents of its slot. -/
def execAt : (c : TableCall R) → Option (CacheValue R) → c.Result × Option (CacheValue R)
  | set key type value size, _ =>
    (true, some { key := key, type := type, value := value.copyAs type size, length := size })
  | get _, v => (v, v)
  | inc _ offset, v => updateAt CacheValueReal.add offset v
  | dec _ offset, v => updateAt CacheValueReal.sub offset v
  | del _, v => (v.isSome, none)

/-- What a call does to the count, from the contents of its slot. -/
def countAt : TableCall R → Option (CacheValue R) → ℕ → ℕ
  | set _ _ _ _, v, n => if v.isNone then n + 1 else n
  | del _, v, n => if v.isNone then n else n - 1
  | _, _, n => n

theorem update_eq (op : R → R → R) (t : HashTable R) (key : List Byte) (offset : R) :
    hashTableUpdate op t key offset =
      ((updateAt op offset (t.slot (t.index key))).1,
        t.setSlot (t.index key) (updateAt op offset (t.slot (t.index key))).2 t.count) := by
  have hself := t.setSlot_self (t.index_lt key)
  unfold hashTableUpdate hashTableGet updateAt
  cases hv : t.slot (t.index key) with
  | none =>
    rw [hv] at hself
    simp only [hself]
  | some value =>
    rw [hv] at hself
    by_cases hs : value.type = cacheValueString
    · simp only [if_pos hs, hself]
    · simp only [if_neg hs]

omit [CacheValueReal R] in
theorem del_eq (t : HashTable R) (key : List Byte) :
    hashTableDel t key =
      ((t.slot (t.index key)).isSome,
        t.setSlot (t.index key) none (countAt (del key) (t.slot (t.index key)) t.count)) := by
  have hself := t.setSlot_self (t.index_lt key)
  unfold hashTableDel countAt
  generalize t.slot (t.index key) = v at *
  cases v with
  | none => simp [hself]
  | some value => rfl

/-- Every call writes back its slot and adjusts the count. -/
theorem exec_eq (c : TableCall R) (t : HashTable R) :
    c.exec t = ((c.execAt (t.slot (t.index c.key))).1,
      t.setSlot (t.index c.key) (c.execAt (t.slot (t.index c.key))).2
        (c.countAt (t.slot (t.index c.key)) t.count)) := by
  cases c with
  | set key type value size => rfl
  | get key =>
    have hself := t.setSlot_self (t.index_lt key)
    simp only [exec, execAt, countAt, TableCall.key, hashTableGet, hself]
  | inc key offset => exact update_eq _ t key offset
  | dec key offset => exact update_eq _ t key offset
  | del key => exact del_eq t key

@[simp] theorem size_exec (c : TableCall R) (t : HashTable R) : (c.exec t).2.size = t.size := by
  rw [exec_eq]
  rfl

@[simp] theorem index_exec (c : TableCall R) (t : HashTable R) (key : List Byte) :
    (c.exec t).2.index key = t.index key := by
  rw [exec_eq]
  rfl

/-- Every call leaves all slots but its own as they were. -/
theorem exec_frame (c : TableCall R) (t : HashTable R) {i : ℕ} (hi : i ≠ t.index c.key) :
    (c.exec t).2.slot i = t.slot i := by
  rw [exec_eq]
  exact t.slot_setSlot_ne hi.symm _ _

theorem slot_exec_self (c : TableCall R) (t : HashTable R) :
    (c.exec t).2.slot (t.index c.key) = (c.execAt (t.slot (t.index c.key))).2 := by
  rw [exec_eq]
  exact t.slot_setSlot_self (t.index_lt _) _ _

theorem updateAt_isSome (op : R → R → R) (offset : R) (v : Option (CacheValue R)) :
    (updateAt op offset v).2.isSome = v.isSome := by
  unfold updateAt
  cases v with
  | none => rfl
  | some value => dsimp only; split_ifs <;> rfl

/-- A call counts its slot out and back in. -/
theorem countAt_eq (c : TableCall R) (v : Option (CacheValue R)) {n : ℕ}
    (hn : v.isSome = true → 0 < n) :
    c.countAt v n = n - v.isSome.toNat + (c.execAt v).2.isSome.toNat := by
  have hkeep : n = n - v.isSome.toNat + v.isSome.toNat := by
    cases hv : v.isSome with
    | false => rfl
    | true =>
      have := hn hv
      simp only [Bool.toNat_true]
      omega
  cases c with
  | set key type value size =>
    cases v with
    | none => rfl
    | some x => exact hkeep
  | get key => exact hkeep
  | inc key offset =>
    have hsome : ((inc key offset).execAt v).2.isSome = v.isSome := updateAt_isSome _ _ v
    rw [hsome]
    exact hkeep
  | dec key offset =>
    have hsome : ((dec key offset).execAt v).2.isSome = v.isSome := updateAt_isSome _ _ v
    rw [hsome]
    exact hkeep
  | del key => cases v <;> rfl

/-- Every call keeps the count equal to the number of occupied slots. -/
theorem countOk_exec (c : TableCall R) {t : HashTable R} (h : t.CountOk) :
    (c.exec t).2.CountOk := by
  have hi := t.index_lt c.key
  rw [exec_eq]
  unfold HashTable.CountOk at h ⊢
  rw [HashTable.count_setSlot, t.occupied_setSlot hi, h]
  exact countAt_eq c _ (t.occupied_pos hi)

/-- The calls on tables of one size, with the slots as locations. -/
theorem tableLocality (R : Type) [CacheValueReal R] (size : ℕ) :
    CallTree.Locality (exec (R := R)) (fun t => t.size = size ∧ t.CountOk)
      (fun c => (fnv1a c.key).toNat % size) (fun t i => t.slot i) execAt where
  inv_exec c t h := ⟨by rw [size_exec, h.1], countOk_exec c h.2⟩
  result c t h := by
    obtain ⟨rfl, -⟩ := h
    rw [exec_eq]
    rfl
  view_self c t h := by
    obtain ⟨rfl, -⟩ := h
    exact slot_exec_self c t
  view_ne c t i h hi := by
    obtain ⟨rfl, -⟩ := h
    exact exec_frame c t hi
  ext t t' h h' hview := by
    have hsize : t.size = t'.size := h.1.trans h'.1.symm
    have hocc := HashTable.occupied_congr hsize fun i _ => hview i
    exact HashTable.ext_slot hsize (fun i _ => hview i) (by rw [h.2, h'.2, hocc])

end TableCall

/-- A program whose calls are all about one key changes its slot only. -/
theorem TableProg.run_frame {R α : Type} [CacheValueReal R] {p : TableProg R α} {key : List Byte}
    (hp : CallTree.Calls (fun c => c.key = key) p) (t : HashTable R) :
    (CallTree.run TableCall.exec p t).2.size = t.size ∧
      ∀ i ≠ t.index key, (CallTree.run TableCall.exec p t).2.slot i = t.slot i := by
  induction p generalizing t with
  | ret a => exact ⟨rfl, fun _ _ => rfl⟩
  | call c k ih =>
    obtain ⟨rfl, hk⟩ := hp
    obtain ⟨hsize, hslot⟩ := ih (c.exec t).1 (hk _) (c.exec t).2
    refine ⟨hsize.trans (TableCall.size_exec c t), fun i hi => ?_⟩
    rw [CallTree.run_call, hslot i (by rwa [TableCall.index_exec])]
    exact TableCall.exec_frame c t hi

/-! ## Reachable tables -/

section Reachable

variable {R : Type}

/-- The type is one of the three and the value of the kind it says. -/
def CacheValue.WellFormed (v : CacheValue R) : Prop :=
  (v.type = cacheValueDecimal ∧ (∃ d, v.value = .decimal d) ∧ v.length = 0) ∨
  (v.type = cacheValueReal ∧ (∃ r, v.value = .real r) ∧ v.length = 0) ∨
  (v.type = cacheValueString ∧ ∃ bytes, v.value = .string bytes ∧ bytes.length = v.length)

/-- The calls the server makes: a type among the three, a number set with size
    0 and a string with at least `size` bytes behind its pointer, where
    `size + 2` is an `int`. -/
def TableCall.Valid : TableCall R → Prop
  | .set _ type value size =>
    (type = cacheValueDecimal ∧ size = 0) ∨ (type = cacheValueReal ∧ size = 0) ∨
      (type = cacheValueString ∧ size ≤ value.asString.length ∧ (size : ℤ) + 2 ≤ intMax)
  | _ => True

theorem slot_hashTableCreate (size : ℕ) (hsize : 0 < size) (i : ℕ) :
    (hashTableCreate R size hsize).slot i = none := by
  simp only [HashTable.slot, hashTableCreate, List.getD_eq_getElem?_getD, List.getElem?_replicate]
  split_ifs <;> rfl

theorem countOk_hashTableCreate (size : ℕ) (hsize : 0 < size) :
    (hashTableCreate R size hsize).CountOk := by
  simp [HashTable.CountOk, HashTable.occupied, hashTableCreate, List.countP_replicate]

variable [CacheValueReal R]

/-- The tables a run of valid calls reaches from `hash_table_create`. -/
inductive Reachable : HashTable R → Prop
  | create (size : ℕ) (hsize : 0 < size) : Reachable (hashTableCreate R size hsize)
  | call {t : HashTable R} (c : TableCall R) : Reachable t → c.Valid → Reachable (c.exec t).2

theorem Reachable.countOk {t : HashTable R} (h : Reachable t) : t.CountOk := by
  induction h with
  | create size hsize => exact countOk_hashTableCreate size hsize
  | call c _ _ ih => exact TableCall.countOk_exec c ih

theorem updateAt_wellFormed (op : R → R → R) (offset : R) {v : Option (CacheValue R)}
    (h : ∀ x ∈ v, x.WellFormed) : ∀ x ∈ (TableCall.updateAt op offset v).2, x.WellFormed := by
  intro x hx
  cases v with
  | none => simp [TableCall.updateAt] at hx
  | some value =>
    have hw := h value rfl
    unfold TableCall.updateAt at hx
    by_cases hs : value.type = cacheValueString
    · simp only [if_pos hs, Option.mem_def, Option.some.injEq] at hx
      exact hx ▸ hw
    · simp only [if_neg hs, Option.mem_def, Option.some.injEq] at hx
      subst hx
      rcases hw with ⟨ht, -, hl⟩ | ⟨ht, -, hl⟩ | ⟨ht, -⟩
      · exact Or.inl ⟨ht, ⟨_, if_pos ht⟩, hl⟩
      · have hne : value.type ≠ cacheValueDecimal := by rw [ht]; decide
        exact Or.inr (Or.inl ⟨ht, ⟨_, (if_neg hne).trans (if_pos ht)⟩, hl⟩)
      · exact absurd ht hs

/-- What one valid call does to the well-formedness of the slots. -/
theorem TableCall.execAt_wellFormed {c : TableCall R} (hc : c.Valid)
    {v : Option (CacheValue R)} (h : ∀ x ∈ v, x.WellFormed) :
    ∀ x ∈ (c.execAt v).2, x.WellFormed := by
  cases c with
  | set key type value size =>
    intro x hx
    simp only [TableCall.execAt, Option.mem_def, Option.some.injEq] at hx
    subst hx
    rcases hc with ⟨rfl, rfl⟩ | ⟨rfl, rfl⟩ | ⟨rfl, hsize, -⟩
    · exact Or.inl ⟨rfl, ⟨_, rfl⟩, rfl⟩
    · exact Or.inr (Or.inl ⟨rfl, ⟨_, rfl⟩, rfl⟩)
    · exact Or.inr (Or.inr ⟨rfl, _, rfl, by simpa using hsize⟩)
  | get key => exact h
  | inc key offset => exact updateAt_wellFormed _ offset h
  | dec key offset => exact updateAt_wellFormed _ offset h
  | del key => simp [TableCall.execAt]

/-- Every value in a reachable table is well formed. -/
theorem Reachable.wellFormed {t : HashTable R} (h : Reachable t) :
    ∀ i, ∀ v ∈ t.slot i, v.WellFormed := by
  induction h with
  | create size hsize =>
    intro i v hv
    rw [slot_hashTableCreate] at hv
    cases hv
  | @call t c _ hc ih =>
    intro i v hv
    by_cases hi : i = t.index c.key
    · subst hi
      rw [TableCall.slot_exec_self] at hv
      exact TableCall.execAt_wellFormed hc (ih _) v hv
    · rw [TableCall.exec_frame c t hi] at hv
      exact ih i v hv

end Reachable

end Memuncached
