import Memuncached.Table.Memory

/-!
# Ownership of the table's memory

Which blocks stand for a `HashTable` (`tableRep`), and what each function of
`hash_table.c` does to them. A slot is taken out of the table (`all_extract`), the
function runs on its blocks, and the slot is put back (`all_set`).
-/

namespace Memuncached.OnHeap

open Separation Assertion

variable {R : Type}

/-! ## Representation -/

/-- What a slot points to: nothing, a value, or a value whose own pointer was
    freed. -/
inductive SlotPtr where
  | null
  | value (p : ℕ)
  | dangling (p q : ℕ)

namespace SlotPtr

/-- The pointer in the slot. -/
def addr : SlotPtr → Option ℕ
  | null => none
  | value p => some p
  | dangling p _ => some p

def Dangles : SlotPtr → Prop
  | dangling _ _ => True
  | _ => False

end SlotPtr

abbrev tableCell (t array count size : ℕ) : Assertion (Block R) :=
  pointsTo t (.table { table := array, count := count, size := size })

abbrev arrayCell (array : ℕ) (slots : List (Option ℕ)) : Assertion (Block R) :=
  pointsTo array (.array slots)

abbrev valueCell (p : ℕ) (v : CacheValue R) (q : Option ℕ) : Assertion (Block R) :=
  pointsTo p (.value { key := v.key, type := v.type, value := q, length := v.length })

/-- The block a value points to; NULL for no data. -/
def dataRep (d : CacheData R) : Option ℕ → Assertion (Block R)
  | none => fact (d = .null)
  | some q => sep (fact (d ≠ .null)) (pointsTo q (.data d))

def slotRep : SlotPtr → Option (CacheValue R) → Assertion (Block R)
  | .null, none => emp
  | .value p, some v => ex fun q => sep (valueCell p v q) (dataRep v.value q)
  | .dangling p q, some v => sep (fact (v.value = .null)) (sep (valueCell p v (some q)) (freed q))
  | _, _ => fact False

theorem slotRep_value {p : ℕ} {v : CacheValue R} (q : Option ℕ) {m : Store (Block R)}
    (h : sep (valueCell p v q) (dataRep v.value q) m) : slotRep (.value p) (some v) m := ⟨q, h⟩

/-- The slots but slot `i`. -/
def others (gs : List SlotPtr) (T : HashTable R) (i : ℕ) : Assertion (Block R) :=
  all ((List.zipWith slotRep gs T.table).eraseIdx i)

/-- The table in memory at `t`, with the pointers `gs` in its slots. -/
def tableRep (t : ℕ) (gs : List SlotPtr) (T : HashTable R) : Assertion (Block R) :=
  ex fun array => sep (fact (gs.length = T.size)) (sep (tableCell t array T.count T.size)
    (sep (arrayCell array (gs.map SlotPtr.addr)) (all (List.zipWith slotRep gs T.table))))

/-- The pointer of slot `i`. -/
def ptrAt (gs : List SlotPtr) (i : ℕ) : SlotPtr := gs.getD i .null

theorem ptrAt_set_self {gs : List SlotPtr} {i : ℕ} (hi : i < gs.length) (g : SlotPtr) :
    ptrAt (gs.set i g) i = g := by
  simp [ptrAt, List.getD_eq_getElem?_getD, hi]

theorem ptrAt_set_ne {gs : List SlotPtr} {i j : ℕ} (h : i ≠ j) (g : SlotPtr) :
    ptrAt (gs.set i g) j = ptrAt gs j := by
  simp [ptrAt, List.getD_eq_getElem?_getD, List.getElem?_set_ne h]

theorem getElem?_addr {gs : List SlotPtr} {i : ℕ} (hi : i < gs.length) :
    (gs.map SlotPtr.addr)[i]? = some (ptrAt gs i).addr := by
  simp [ptrAt, List.getD_eq_getElem?_getD, hi]

/-- No pointer dangles. -/
def InOrder (gs : List SlotPtr) : Prop := ∀ i, ¬ (ptrAt gs i).Dangles

theorem inOrder_set {gs : List SlotPtr} (h : InOrder gs) {i : ℕ} {g : SlotPtr}
    (hg : ¬ g.Dangles) : InOrder (gs.set i g) := by
  intro j
  by_cases hij : i = j
  · subst hij
    by_cases hi : i < gs.length
    · rw [ptrAt_set_self hi]
      exact hg
    · rw [List.set_eq_of_length_le (by omega)]
      exact h i
  · rw [ptrAt_set_ne hij]
    exact h j

theorem InOrder.mem {gs : List SlotPtr} (h : InOrder gs) : ∀ g ∈ gs, ¬ g.Dangles := by
  intro g hg
  obtain ⟨i, hi, rfl⟩ := List.getElem_of_mem hg
  have hat := h i
  rwa [ptrAt, List.getD_eq_getElem?_getD, List.getElem?_eq_getElem hi] at hat

theorem dangles_mem {gs : List SlotPtr} {i : ℕ} (h : (ptrAt gs i).Dangles) :
    ∃ g ∈ gs, g.Dangles := by
  by_cases hi : i < gs.length
  · refine ⟨gs[i], List.getElem_mem hi, ?_⟩
    rwa [ptrAt, List.getD_eq_getElem?_getD, List.getElem?_eq_getElem hi] at h
  · rw [ptrAt, List.getD_eq_getElem?_getD, List.getElem?_eq_none (by omega)] at h
    exact h.elim

theorem inOrder_replicate (n : ℕ) : InOrder (List.replicate n .null) := by
  intro i
  rw [ptrAt, List.getD_eq_getElem?_getD, List.getElem?_replicate]
  split_ifs <;> exact fun h => h

theorem value_of_addr {g : SlotPtr} {q : ℕ} (hg : ¬ g.Dangles) (hq : g.addr = some q) :
    g = .value q := by
  cases g with
  | null => cases hq
  | value p => exact congrArg SlotPtr.value (Option.some.inj hq)
  | dangling p q => exact absurd trivial hg

/-- One slot taken out of the others. -/
theorem all_slots {gs : List SlotPtr} {T : HashTable R} (hlen : gs.length = T.size) {i : ℕ}
    (hi : i < T.size) :
    all (List.zipWith slotRep gs T.table) = sep (slotRep (ptrAt gs i) (T.slot i)) (others gs T i) := by
  have hlt : i < (List.zipWith slotRep gs T.table).length := by
    rw [List.length_zipWith, hlen, T.length_table, min_self]
    exact hi
  have hg : i < gs.length := by omega
  have ht : i < T.table.length := by rw [T.length_table]; exact hi
  rw [all_extract hlt, List.getElem_zipWith, others, T.slot_eq_getElem ht, ptrAt,
    List.getD_eq_getElem?_getD, List.getElem?_eq_getElem hg, Option.getD_some]

theorem zipWith_set (gs : List SlotPtr) (vs : List (Option (CacheValue R))) (i : ℕ) (g : SlotPtr)
    (v : Option (CacheValue R)) :
    List.zipWith slotRep (gs.set i g) (vs.set i v) =
      (List.zipWith slotRep gs vs).set i (slotRep g v) := by
  induction gs generalizing vs i with
  | nil => rfl
  | cons g' gs ih =>
    cases vs with
    | nil => cases i <;> rfl
    | cons v' vs =>
      cases i with
      | zero => rfl
      | succ i => exact congrArg (slotRep g' v' :: ·) (ih vs i)

/-- One slot put back among the others. -/
theorem all_slots_set {gs : List SlotPtr} {T : HashTable R} (hlen : gs.length = T.size) {i : ℕ}
    (hi : i < T.size) (g : SlotPtr) (v : Option (CacheValue R)) (count : ℕ) :
    all (List.zipWith slotRep (gs.set i g) (T.setSlot i v count).table) =
      sep (slotRep g v) (others gs T i) := by
  have hlt : i < (List.zipWith slotRep gs T.table).length := by
    rw [List.length_zipWith, hlen, T.length_table, min_self]
    exact hi
  show all (List.zipWith slotRep (gs.set i g) (T.table.set i v)) = _
  rw [zipWith_set, all_set hlt, others]

/-! ## Opening and closing a slot -/

section Slot

variable {α : Type} {t i : ℕ} {gs : List SlotPtr} {T : HashTable R} {c : HeapM (Block R) α}
  {Q : α → Assertion (Block R)}

/-- The table at `t` with one slot apart from the others. -/
def opened (t array : ℕ) (gs : List SlotPtr) (T : HashTable R) (i : ℕ) : Assertion (Block R) :=
  sep (tableCell t array T.count T.size) (sep (arrayCell array (gs.map SlotPtr.addr))
    (sep (slotRep (ptrAt gs i) (T.slot i)) (others gs T i)))

theorem triple_open_slot (hi : i < T.size)
    (h : ∀ array, gs.length = T.size → Triple (opened t array gs T i) c Q) :
    Triple (tableRep t gs T) c Q := by
  refine Triple.ex fun array => Triple.fact fun hlen => ?_
  rw [all_slots hlen hi]
  exact h array hlen

theorem faults_open_slot (hi : i < T.size)
    (h : ∀ array, gs.length = T.size → Faults (opened t array gs T i) c) :
    Faults (tableRep t gs T) c := by
  refine Faults.ex fun array => Faults.fact fun hlen => ?_
  rw [all_slots hlen hi]
  exact h array hlen

/-- A slot is closed with what it points to now. -/
theorem tableRep_close (hi : i < T.size) (hlen : gs.length = T.size) (g : SlotPtr)
    (v : Option (CacheValue R)) (count array : ℕ) (m : Store (Block R))
    (h : sep (tableCell t array count T.size) (sep (arrayCell array
      ((gs.map SlotPtr.addr).set i g.addr)) (sep (slotRep g v) (others gs T i))) m) :
    tableRep t (gs.set i g) (T.setSlot i v count) m := by
  refine ⟨array, fact_sep.mpr ⟨?_, ?_⟩⟩
  · rw [List.length_set, hlen]
    rfl
  · rw [all_slots_set hlen hi, List.map_set]
    exact h

/-- A slot is closed as it was. -/
theorem tableRep_close_self (hi : i < T.size) (hlen : gs.length = T.size) (array : ℕ)
    (m : Store (Block R)) (h : opened t array gs T i m) : tableRep t gs T m := by
  refine ⟨array, fact_sep.mpr ⟨hlen, ?_⟩⟩
  rw [all_slots hlen hi]
  exact h

end Slot

/-! ## Freeing and reading -/

/-- The block behind a pointer, freed. -/
def freedRep : Option ℕ → Assertion (Block R)
  | none => emp
  | some q => freed q

theorem freedRep_garbage (q : Option ℕ) : ∀ m : Store (Block R), freedRep q m → garbage m := by
  cases q with
  | none => exact emp_garbage
  | some q => exact freed_garbage q

/-- `free` of the pointer of a value. -/
theorem freePointer_spec (d : CacheData R) (q : Option ℕ) :
    Triple (dataRep d q) (freePointer q) fun _ => freedRep q := by
  cases q with
  | none => exact Triple.pure fun m h => h.2
  | some q => exact Triple.fact fun _ => Triple.free q (Block.data d)

theorem freePointer_dangling (q : ℕ) :
    Faults (freed q : Assertion (Block R)) (freePointer (some q)) := Faults.free q

/-- The contents of a value are set exactly when its type is known. -/
def KindOk (v : CacheValue R) : Prop := v.value = .null ↔ UnknownType v.type

/-- Reading through the pointer to a value. -/
theorem readValue_spec {v : CacheValue R} (hv : KindOk v) (p : ℕ) (q : Option ℕ) :
    Triple (sep (valueCell p v q) (dataRep v.value q)) (readValue (some p)) fun r =>
      sep (fact (r = some v)) (sep (valueCell p v q) (dataRep v.value q)) := by
  refine Triple.load_bind rfl rfl ?_
  by_cases hu : UnknownType v.type
  · rw [if_pos hu]
    refine Triple.pure fun m hm => fact_sep.mpr ⟨?_, hm⟩
    rw [← hv.mpr hu]
  · rw [if_neg hu]
    cases q with
    | none =>
      rw [sep_comm]
      exact Triple.fact fun hnull => absurd (hv.mp hnull) hu
    | some q =>
      refine Triple.load_bind (P := sep (fact (v.value ≠ .null)) (valueCell p v (some q)))
        (b := .data v.value) (p := q) ?_ rfl ?_
      · rw [dataRep, sep_comm, sep_assoc, sep_left_comm]
      · exact Triple.pure fun m hm => fact_sep.mpr ⟨rfl, hm⟩

/-- Reading through a pointer whose value was freed. -/
theorem readValue_faults (p : ℕ) :
    Faults (freed p : Assertion (Block R)) (readValue (some p)) := (Faults.load _ p).bind

/-- Reading a value of unknown type does not touch what its pointer points to. -/
theorem readValue_dangling {v : CacheValue R} (hv : KindOk v) (hnull : v.value = .null) (p q : ℕ) :
    Triple (sep (valueCell p v (some q)) (freed q)) (readValue (some p)) fun r =>
      sep (fact (r = some v)) (sep (valueCell p v (some q)) (freed q)) := by
  refine Triple.load_bind rfl rfl ?_
  rw [if_pos (hv.mp hnull)]
  refine Triple.pure fun m hm => fact_sep.mpr ⟨?_, hm⟩
  rw [← hnull]

/-- Reading through the pointer of a slot. -/
theorem readValue_slot {g : SlotPtr} {v : Option (CacheValue R)} (hv : ∀ x ∈ v, KindOk x) :
    Triple (slotRep g v) (readValue g.addr) fun r => sep (fact (r = v)) (slotRep g v) := by
  cases g with
  | null =>
    cases v with
    | none => exact Triple.pure fun m hm => fact_sep.mpr ⟨rfl, hm⟩
    | some v => exact fun h m f _ _ hm => hm.1.elim
  | value p =>
    cases v with
    | none => exact fun h m f _ _ hm => hm.1.elim
    | some v =>
      refine Triple.ex fun q => (readValue_spec (hv v rfl) p q).post fun r m hm => ?_
      obtain ⟨hr, hm⟩ := fact_sep.mp hm
      exact fact_sep.mpr ⟨hr, q, hm⟩
  | dangling p q =>
    cases v with
    | none => exact fun h m f _ _ hm => hm.1.elim
    | some v =>
      refine Triple.fact fun hnull => (readValue_dangling (hv v rfl) hnull p q).post fun r m hm => ?_
      obtain ⟨hr, hm⟩ := fact_sep.mp hm
      exact fact_sep.mpr ⟨hr, fact_sep.mpr ⟨hnull, hm⟩⟩

/-! ## The functions on their slot -/

section OnSlot

variable {t array count size i p : ℕ} {slots : List (Option ℕ)} {S : Assertion (Block R)}
  {v : CacheValue R} {q : Option ℕ}

/-- The table's block and its array, and what else there is. -/
def tableAnd (t array count size : ℕ) (slots : List (Option ℕ)) (S : Assertion (Block R)) :
    Assertion (Block R) :=
  sep (tableCell t array count size) (sep (arrayCell array slots) S)

theorem tableAnd_eq (S : Assertion (Block R)) :
    tableAnd t array count size slots S =
      sep S (sep (tableCell t array count size) (arrayCell array slots)) := by
  rw [tableAnd, ← sep_assoc, sep_comm]

theorem tableAnd_mono {P P' : Assertion (Block R)} (h : ∀ m, P m → P' m) :
    ∀ m, tableAnd t array count size slots P m → tableAnd t array count size slots P' m := by
  intro m hm
  rw [tableAnd_eq] at hm ⊢
  exact sep_mono h (fun _ h => h) m hm

/-- What else there is, first. -/
theorem tableAnd_third (P S : Assertion (Block R)) :
    tableAnd t array count size slots (sep P S) = sep P (tableAnd t array count size slots S) :=
  sep_third _ _ _ _

theorem hashTableGet_spec {key : List Byte} {a : Option ℕ}
    (ha : slots[(fnv1a key).toNat % size]? = some a) :
    Triple (tableAnd t array count size slots S) (hashTableGet t key) fun r =>
      sep (fact (r = a)) (tableAnd t array count size slots S) := by
  refine Triple.load_bind rfl rfl ?_
  exact Triple.load_last (sep_left_comm _ _ _) ha

/-! ### `hash_table_del` -/

theorem hashTableDel_null {key : List Byte} (ha : slots[(fnv1a key).toNat % size]? = some none) :
    Triple (tableAnd t array count size slots S) (hashTableDel t key) fun r =>
      sep (fact (r = false)) (tableAnd t array count size slots S) := by
  refine Triple.load_bind rfl rfl ?_
  refine Triple.load_bind (sep_left_comm _ _ _) ha ?_
  exact Triple.pure fun m hm => fact_sep.mpr ⟨rfl, hm⟩

theorem hashTableDel_value {key : List Byte}
    (ha : slots[(fnv1a key).toNat % size]? = some (some p)) :
    Triple (tableAnd t array count size slots (sep (valueCell p v q) (sep (dataRep v.value q) S)))
      (hashTableDel t key) fun r => sep (fact (r = true))
        (tableAnd t array (count - 1) size (slots.set ((fnv1a key).toNat % size) none)
          (sep (freed p) (sep (freedRep q) S))) := by
  have hlt := (List.getElem?_eq_some_iff.mp ha).1
  refine Triple.load_bind rfl rfl ?_
  refine Triple.load_bind (sep_left_comm _ _ _) ha ?_
  refine Triple.load_bind (sep_third _ _ _ _) rfl ?_
  refine Triple.frame_bind (freePointer_spec v.value q) (sep_fourth _ _ _ _ _) fun _ => ?_
  rw [← sep_fourth]
  refine Triple.free_bind (sep_third _ _ _ _) (sep_third _ _ _ _).symm ?_
  refine Triple.update_bind (sep_left_comm _ _ _) (if_pos hlt) (sep_left_comm _ _ _) ?_
  refine Triple.update_bind rfl rfl rfl ?_
  exact Triple.pure fun m hm => fact_sep.mpr ⟨rfl, hm⟩

/-- The value's own pointer was freed before. -/
theorem hashTableDel_dangling {key : List Byte} {q : ℕ}
    (ha : slots[(fnv1a key).toNat % size]? = some (some p)) :
    Faults (tableAnd t array count size slots (sep (valueCell p v (some q)) (sep (freed q) S)))
      (hashTableDel t key) := by
  refine Faults.load_bind rfl rfl ?_
  refine Faults.load_bind (sep_left_comm _ _ _) ha ?_
  refine Faults.load_bind (sep_third _ _ _ _) rfl ?_
  exact Faults.frame_bind (freePointer_dangling q) (sep_fourth _ _ _ _ _)

/-! ### `hash_table_inc` and `hash_table_dec` -/

section Update

variable [CacheValueReal R]

omit [CacheValueReal R] in
theorem dataRep_some {d : CacheData R} (hd : d ≠ .null) (q : ℕ) :
    dataRep d (some q) = pointsTo q (.data d) :=
  Assertion.ext fun _ => fact_sep.trans (and_iff_right hd)

theorem update_other (op : R → R → R) (offset : R) (hd : v.type ≠ cacheValueDecimal)
    (hr : v.type ≠ cacheValueReal) : v.update op offset = v := by
  unfold CacheValue.update
  rw [if_neg hd, if_neg hr]

/-- The write of a number into its block. -/
theorem updateData_spec {op : R → R → R} {offset : R} {f : CacheData R → CacheData R} {q : ℕ}
    (hf : (v.update op offset).value = f v.value) (hne : f v.value ≠ .null) :
    Triple (sep (valueCell p v (some q)) (sep (pointsTo q (.data v.value)) S))
      (update (Block.onData f) q) fun _ => sep (valueCell p (v.update op offset) (some q))
        (sep (dataRep (v.update op offset).value (some q)) S) := by
  have hwrite : Block.onData f (.data v.value) = some (.data (f v.value)) := rfl
  rw [hf, dataRep_some hne]
  refine (Triple.update_last (sep_left_comm _ _ _) hwrite).post fun _ m hm => ?_
  rw [sep_left_comm]
  exact hm

/-- A number is changed in its block; anything else stays as it is. -/
theorem updateValue_spec (op : R → R → R) (offset : R) (hv : KindOk v) :
    Triple (sep (valueCell p v q) (sep (dataRep v.value q) S)) (updateValue op p offset) fun _ =>
      sep (valueCell p (v.update op offset) q) (sep (dataRep (v.update op offset).value q) S) := by
  cases q with
  | none =>
    refine Triple.pre (P := sep (fact (v.value = .null)) (sep (valueCell p v none) S)) ?_ ?_
    · refine Triple.fact fun hnull => Triple.load_bind rfl rfl ?_
      have hu := hv.mp hnull
      rw [if_neg hu.1, if_neg hu.2.1, update_other op offset hu.1 hu.2.1]
      refine Triple.pure fun m hm => ?_
      rw [sep_left_comm]
      exact fact_sep.mpr ⟨hnull, hm⟩
    · intro m hm
      rwa [sep_left_comm]
  | some q =>
    refine Triple.pre (P := sep (fact (v.value ≠ .null))
      (sep (valueCell p v (some q)) (sep (pointsTo q (.data v.value)) S))) ?_ ?_
    · refine Triple.fact fun hne => Triple.load_bind rfl rfl ?_
      by_cases hd : v.type = cacheValueDecimal
      · rw [if_pos hd]
        exact updateData_spec (if_pos hd) (by simp)
      · rw [if_neg hd]
        by_cases hr : v.type = cacheValueReal
        · rw [if_pos hr]
          exact updateData_spec ((if_neg hd).trans (if_pos hr)) (by simp)
        · rw [if_neg hr, update_other op offset hd hr, dataRep_some hne]
          exact Triple.pure fun m hm => hm
    · intro m hm
      rw [dataRep, sep_assoc, sep_left_comm] at hm
      exact hm

theorem hashTableUpdate_null {op : R → R → R} {key : List Byte} {offset : R}
    (ha : slots[(fnv1a key).toNat % size]? = some none) :
    Triple (tableAnd t array count size slots S) (hashTableUpdate op t key offset) fun r =>
      sep (fact (r = none)) (tableAnd t array count size slots S) := by
  refine Triple.bind (hashTableGet_spec ha) fun a => Triple.fact fun hr => ?_
  rw [hr]
  exact Triple.pure fun m hm => fact_sep.mpr ⟨rfl, hm⟩

theorem hashTableUpdate_string {op : R → R → R} {key : List Byte} {offset : R}
    (ha : slots[(fnv1a key).toNat % size]? = some (some p)) (hs : v.type = cacheValueString) :
    Triple (tableAnd t array count size slots (sep (valueCell p v q) S))
      (hashTableUpdate op t key offset) fun r =>
        sep (fact (r = none)) (tableAnd t array count size slots (sep (valueCell p v q) S)) := by
  refine Triple.bind (hashTableGet_spec ha) fun a => Triple.fact fun hr => ?_
  rw [hr]
  refine Triple.load_bind (sep_third _ _ _ _) rfl ?_
  rw [if_pos hs]
  exact Triple.pure fun m hm => fact_sep.mpr ⟨rfl, hm⟩

theorem hashTableUpdate_value {op : R → R → R} {key : List Byte} {offset : R}
    (ha : slots[(fnv1a key).toNat % size]? = some (some p)) (hs : v.type ≠ cacheValueString)
    (hv : KindOk v) :
    Triple (tableAnd t array count size slots (sep (valueCell p v q) (sep (dataRep v.value q) S)))
      (hashTableUpdate op t key offset) fun r => sep (fact (r = some p))
        (tableAnd t array count size slots (sep (valueCell p (v.update op offset) q)
          (sep (dataRep (v.update op offset).value q) S))) := by
  refine Triple.bind (hashTableGet_spec ha) fun a => Triple.fact fun hr => ?_
  rw [hr]
  refine Triple.load_bind (sep_third _ _ _ _) rfl ?_
  rw [if_neg hs]
  refine Triple.frame_bind (updateValue_spec op offset hv) (tableAnd_eq _) fun _ => ?_
  rw [← tableAnd_eq]
  exact Triple.pure fun m hm => fact_sep.mpr ⟨rfl, hm⟩

/-- A value of unknown type is found, and left as it is. -/
theorem hashTableUpdate_unknown {op : R → R → R} {key : List Byte} {offset : R}
    (ha : slots[(fnv1a key).toNat % size]? = some (some p)) (hu : UnknownType v.type) :
    Triple (tableAnd t array count size slots (sep (valueCell p v q) S))
      (hashTableUpdate op t key offset) fun r =>
        sep (fact (r = some p)) (tableAnd t array count size slots (sep (valueCell p v q) S)) := by
  refine Triple.bind (hashTableGet_spec ha) fun a => Triple.fact fun hr => ?_
  rw [hr]
  refine Triple.load_bind (sep_third _ _ _ _) rfl ?_
  rw [if_neg hu.2.2]
  refine Triple.bind (Q := fun _ => tableAnd t array count size slots (sep (valueCell p v q) S))
    ?_ fun _ => Triple.pure fun m hm => fact_sep.mpr ⟨rfl, hm⟩
  refine Triple.load_bind (sep_third _ _ _ _) rfl ?_
  rw [if_neg hu.1, if_neg hu.2.1]
  exact Triple.pure fun m hm => hm

end Update

/-! ### `hash_table_set` -/

section Set

variable {found : Found R} {w : ValueBlock}

/-- An occupied slot keeps its block. -/
theorem makeValue_some (ha : slots[i]? = some (some p)) :
    Triple (tableAnd t array count size slots S) (makeValue found t i) fun r =>
      sep (fact (r = p)) (tableAnd t array count size slots S) := by
  refine Triple.load_bind rfl rfl ?_
  refine Triple.load_bind (sep_left_comm _ _ _) ha ?_
  exact Triple.pure fun m hm => fact_sep.mpr ⟨rfl, hm⟩

/-- An empty slot gets a block, with NULL in it. -/
theorem makeValue_none (ha : slots[i]? = some none) :
    Triple (tableAnd t array count size slots S) (makeValue found t i) fun r =>
      tableAnd t array (count + 1) size (slots.set i (some r))
        (sep (pointsTo r (.value { found.value with value := none })) S) := by
  have hlt := (List.getElem?_eq_some_iff.mp ha).1
  refine Triple.load_bind rfl rfl ?_
  refine Triple.load_bind (sep_left_comm _ _ _) ha ?_
  refine Triple.malloc_bind fun r => ?_
  rw [tableAnd, ← sep_third]
  refine Triple.update_bind (sep_left_comm _ _ _) (if_pos hlt) (sep_left_comm _ _ _) ?_
  refine Triple.update_bind (sep_third _ _ _ _) rfl (sep_third _ _ _ _).symm ?_
  refine Triple.update_bind rfl rfl rfl ?_
  exact Triple.pure fun m hm => hm

theorem freeValue_spec {d : CacheData R} :
    Triple (sep (pointsTo p (.value w)) (dataRep d w.value)) (freeValue p) fun _ =>
      sep (pointsTo p (.value w)) (freedRep w.value) := by
  refine Triple.load_bind rfl rfl ?_
  refine ((freePointer_spec d w.value).frame (pointsTo p (.value w))).pre ?_ |>.post ?_
  · intro m hm
    rwa [sep_comm]
  · intro _ m hm
    rwa [sep_comm]

theorem freeValue_dangling {q : ℕ} (hw : w.value = some q) :
    Faults (sep (pointsTo p (.value w : Block R)) (freed q)) (freeValue p) := by
  refine Faults.load_bind rfl rfl ?_
  rw [hw]
  refine ((freePointer_dangling q).frame (pointsTo p (.value w))).pre fun m hm => ?_
  rwa [sep_comm]

/-- A fresh block for the value. -/
theorem storeData_spec (d : CacheData R) :
    Triple (pointsTo p (.value w)) (storeData found p d) fun _ => ex fun q =>
      sep (pointsTo p (.value { w with value := some q })) (pointsTo q (.data d)) := by
  refine Triple.pre (P := sep (pointsTo p (.value w)) emp) ?_ fun m hm => by rwa [sep_emp]
  refine Triple.malloc_bind fun q => ?_
  refine Triple.update_bind (sep_left_comm _ _ _) rfl rfl ?_
  have hwrite : Block.onData (fun _ => d) (.data found.data) = some (Block.data d) := rfl
  refine (Triple.update_last (sep_left_comm _ _ _) hwrite).post fun _ m hm => ⟨q, ?_⟩
  rwa [sep_left_comm, sep_emp] at hm

variable [CacheValueReal R]

/-- The copy of a value is NULL exactly for an unknown type. -/
theorem copyAs_eq_null {d : CacheData R} {type : UInt8} {n : ℕ} :
    d.copyAs type n = .null ↔ UnknownType type := by
  unfold CacheData.copyAs UnknownType
  split_ifs <;> simp [*]

theorem copyValue_eq (p : ℕ) (type : UInt8) (d : CacheData R) (n : ℕ) :
    copyValue found p type d n =
      if UnknownType type then pure () else storeData found p (d.copyAs type n) := by
  unfold copyValue CacheData.copyAs UnknownType
  split_ifs <;> simp_all

/-- What a slot points to when `hash_table_set` leaves it: for an unknown type
    the freed pointer stays. -/
def setPtr (p : ℕ) (type : UInt8) : Option ℕ → SlotPtr
  | none => .value p
  | some q => if UnknownType type then .dangling p q else .value p

theorem setPtr_addr (p : ℕ) (type : UInt8) (q : Option ℕ) : (setPtr p type q).addr = some p := by
  cases q with
  | none => rfl
  | some q =>
    unfold setPtr
    split_ifs <;> rfl

theorem setPtr_dangles (p : ℕ) (type : UInt8) (q : Option ℕ) :
    (setPtr p type q).Dangles ↔ UnknownType type ∧ q ≠ none := by
  cases q with
  | none => simp [setPtr, SlotPtr.Dangles]
  | some q =>
    unfold setPtr
    split_ifs with hu <;> simp [SlotPtr.Dangles, hu]

/-- The value `hash_table_set` stores. -/
def valueSet (key : List Byte) (type : UInt8) (d : CacheData R) (n : ℕ) : CacheValue R where
  key := key
  type := type
  value := d.copyAs type n
  length := n

theorem copyValue_spec (key : List Byte) (type : UInt8) (d : CacheData R) (n : ℕ) (q : Option ℕ) :
    Triple (sep (valueCell p (valueSet key type d n) q) (freedRep q))
      (copyValue found p type d n) fun _ =>
        sep (slotRep (setPtr p type q) (some (valueSet key type d n))) garbage := by
  rw [copyValue_eq]
  by_cases hu : UnknownType type
  · rw [if_pos hu]
    refine Triple.pure fun m hm => ?_
    have hnull : (valueSet key type d n).value = .null := copyAs_eq_null.mpr hu
    cases q with
    | none =>
      refine sep_mono (fun m hm => slotRep_value none ?_) emp_garbage m hm
      rw [sep_comm]
      exact fact_sep.mpr ⟨hnull, hm⟩
    | some q =>
      refine sep_mono (fun m hm => hm) emp_garbage m ?_
      rw [sep_emp, setPtr, if_pos hu]
      exact fact_sep.mpr ⟨hnull, hm⟩
  · have hptr : setPtr p type q = .value p := by
      cases q with
      | none => rfl
      | some q => exact if_neg hu
    rw [if_neg hu, hptr]
    refine ((storeData_spec _).frame (freedRep q)).post fun _ => ?_
    refine sep_mono (fun m hm => ?_) (freedRep_garbage q)
    obtain ⟨q', hm⟩ := hm
    refine slotRep_value (some q') ?_
    rw [dataRep_some (show (valueSet key type d n).value ≠ .null from copyAs_eq_null.not.mpr hu)]
    exact hm

theorem writeValue_spec {old : CacheData R} (key : List Byte) (type : UInt8) (d : CacheData R)
    (n : ℕ) :
    Triple (sep (pointsTo p (.value w)) (dataRep old w.value))
      (writeValue found p key type d n) fun _ =>
        sep (slotRep (setPtr p type w.value) (some (valueSet key type d n))) garbage := by
  refine Triple.update_bind rfl rfl rfl ?_
  refine Triple.update_bind rfl rfl rfl ?_
  refine Triple.update_bind rfl rfl rfl ?_
  exact Triple.bind freeValue_spec fun _ => copyValue_spec key type d n w.value

theorem writeValue_new (hw : w.value = none) (key : List Byte) (type : UInt8) (d : CacheData R)
    (n : ℕ) :
    Triple (pointsTo p (.value w)) (writeValue found p key type d n) fun _ =>
      sep (slotRep (.value p) (some (valueSet key type d n))) garbage := by
  have hspec := @writeValue_spec R p found w _ .null key type d n
  rw [hw] at hspec
  refine hspec.pre fun m hm => ?_
  rw [sep_comm]
  exact fact_sep.mpr ⟨rfl, hm⟩

/-- The value's own pointer was freed before. -/
theorem writeValue_dangling {q : ℕ} (hw : w.value = some q) (key : List Byte) (type : UInt8)
    (d : CacheData R) (n : ℕ) :
    Faults (sep (pointsTo p (.value w)) (freed q)) (writeValue found p key type d n) := by
  refine Faults.update_bind rfl rfl rfl ?_
  refine Faults.update_bind rfl rfl rfl ?_
  refine Faults.update_bind rfl rfl rfl ?_
  exact Faults.bind (freeValue_dangling hw)

end Set

theorem hashTableSet_null {found : Found R} [CacheValueReal R] {key : List Byte} (type : UInt8)
    (d : CacheData R) (n : ℕ) (ha : slots[(fnv1a key).toNat % size]? = some none) :
    Triple (tableAnd t array count size slots S) (hashTableSet found t key type d n) fun r =>
      ex fun p => sep (fact (r = true)) (tableAnd t array (count + 1) size
        (slots.set ((fnv1a key).toNat % size) (some p))
          (sep (slotRep (.value p) (some (valueSet key type d n))) (sep garbage S))) := by
  refine Triple.load_bind rfl rfl ?_
  refine Triple.bind (makeValue_none ha) fun p => ?_
  refine Triple.frame_bind (writeValue_new rfl key type d n) (tableAnd_third _ _) fun _ => ?_
  refine Triple.pure fun m hm => ⟨p, fact_sep.mpr ⟨rfl, ?_⟩⟩
  rw [tableAnd_third, tableAnd_third, ← sep_assoc]
  exact hm

theorem hashTableSet_value {found : Found R} [CacheValueReal R] {key : List Byte} (type : UInt8)
    (d : CacheData R) (n : ℕ) (ha : slots[(fnv1a key).toNat % size]? = some (some p)) :
    Triple (tableAnd t array count size slots (sep (valueCell p v q) (sep (dataRep v.value q) S)))
      (hashTableSet found t key type d n) fun r => sep (fact (r = true))
        (tableAnd t array count size slots
          (sep (slotRep (setPtr p type q) (some (valueSet key type d n))) (sep garbage S))) := by
  refine Triple.load_bind rfl rfl ?_
  refine Triple.bind (makeValue_some ha) fun p' => Triple.fact fun hp => ?_
  rw [hp, tableAnd_third, tableAnd_third, ← sep_assoc]
  refine Triple.frame_bind (writeValue_spec key type d n) rfl fun _ => ?_
  refine Triple.pure fun m hm => fact_sep.mpr ⟨rfl, ?_⟩
  rw [tableAnd_third, tableAnd_third, ← sep_assoc]
  exact hm

end OnSlot

end Memuncached.OnHeap
