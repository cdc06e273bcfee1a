import Memuncached.Lib.DirectMapped
import Memuncached.Table.Calls

/-!
# The table as a finite map

`KeyMap` is what the hash table is for: a finite map from keys to values, with
the five operations on it. `hash_table.c` never compares keys, so that the table
agrees with the map only as long as the keys that meet in a slot are equal.

* `hashTable_agrees_iff`: a run of calls agrees with the map, call by call, exactly when
  no call is made for a key whose slot is taken by another key (`ClashFree`).
* `Refines.exec`: one call on its own slot.
-/

namespace Memuncached

open DirectMapped

section Refine

variable {R : Type} [CacheValueReal R]

/-! ## Specification -/

/-- A finite map from keys to values. -/
abbrev KeyMap (R : Type) := Finmap fun _ : List Byte => CacheValue R

/-- `hash_table_inc` and `hash_table_dec` on the map. -/
def KeyMap.update (op : R → R → R) (m : KeyMap R) (key : List Byte) (offset : R) :
    Option (CacheValue R) × KeyMap R :=
  match m.lookup key with
  | none => (none, m)
  | some v =>
    if v.type = cacheValueString then (none, m)
    else (some (v.update op offset), m.insert key (v.update op offset))

/-- A call on the map. -/
def KeyMap.exec : (c : TableCall R) → KeyMap R → c.Result × KeyMap R
  | .set key type value size, m =>
    (true, m.insert key
      { key := key, type := type, value := value.copyAs type size, length := size })
  | .get key, m => (m.lookup key, m)
  | .inc key offset, m => m.update CacheValueReal.add key offset
  | .dec key offset, m => m.update CacheValueReal.sub key offset
  | .del key, m => ((m.lookup key).isSome, m.erase key)

/-- The run on the table returns what the run on the map returns, call by call,
    and at every moment the count is the number of keys. -/
def Agrees : List (TableCall R) → HashTable R → KeyMap R → Prop
  | [], t, m => t.count = m.keys.card
  | c :: calls, t, m =>
    t.count = m.keys.card ∧ (c.exec t).1 = (KeyMap.exec c m).1 ∧
      Agrees calls (c.exec t).2 (KeyMap.exec c m).2

/-! ## Collisions -/

/-- The slot of a key in a table of `size` slots. -/
def slotOf (size : ℕ) (key : List Byte) : ℕ := (fnv1a key).toNat % size

/-- INC and DEC leave a string alone, whoever set it. -/
def TableCall.Ignores : TableCall R → CacheValue R → Prop
  | .inc _ _, v => v.type = cacheValueString
  | .dec _ _, v => v.type = cacheValueString
  | _, _ => False

/-- No call meets in its slot a value of another key, unless it ignores it. -/
def ClashFree (size : ℕ) : List (TableCall R) → KeyMap R → Prop
  | [], _ => True
  | c :: calls, m =>
    (∀ k v, m.lookup k = some v → slotOf size k = slotOf size c.key → k = c.key ∨ c.Ignores v) ∧
      ClashFree size calls (KeyMap.exec c m).2

/-! ## Refinement -/

/-- The table holds the map. -/
structure Refines (t : HashTable R) (m : KeyMap R) : Prop where
  represents : Represents (slotOf t.size) CacheValue.key t.slot m
  count : t.count = m.keys.card

omit [CacheValueReal R] in
theorem refines_create (size : ℕ) (hsize : 0 < size) :
    Refines (hashTableCreate R size hsize) ∅ where
  represents := by
    have hslot : (hashTableCreate R size hsize).slot = fun _ => none := by
      funext i
      exact slot_hashTableCreate size hsize i
    rw [hslot]
    exact represents_empty _ _
  count := rfl

/-- Every call on the map is an update of its key by what the call does to a
    slot. -/
theorem keyMap_exec_eq (c : TableCall R) (m : KeyMap R) :
    KeyMap.exec c m =
      ((c.execAt (m.lookup c.key)).1, put m c.key (c.execAt (m.lookup c.key)).2) := by
  have hupdate : ∀ (op : R → R → R) (key : List Byte) (offset : R), m.update op key offset =
      ((TableCall.updateAt op offset (m.lookup key)).1,
        put m key (TableCall.updateAt op offset (m.lookup key)).2) := by
    intro op key offset
    have hself := put_lookup m key
    unfold KeyMap.update TableCall.updateAt
    cases hv : m.lookup key with
    | none =>
      rw [hv] at hself
      simp only [hself]
    | some v =>
      rw [hv] at hself
      by_cases hs : v.type = cacheValueString
      · simp only [if_pos hs, hself]
      · simp only [if_neg hs]
        rfl
  cases c with
  | set key type value size => rfl
  | get key => exact Prod.ext rfl (put_lookup m key).symm
  | inc key offset => exact hupdate _ key offset
  | dec key offset => exact hupdate _ key offset
  | del key => rfl

/-- What a call leaves in its slot is its key's, if its slot was. -/
theorem key_execAt (c : TableCall R) {v : Option (CacheValue R)} (hv : ∀ x ∈ v, x.key = c.key) :
    ∀ x ∈ (c.execAt v).2, x.key = c.key := by
  have hupdate : ∀ (op : R → R → R) (offset : R),
      ∀ x ∈ (TableCall.updateAt op offset v).2, x.key = c.key := by
    intro op offset x hx
    cases v with
    | none => cases hx
    | some value =>
      unfold TableCall.updateAt at hx
      by_cases hs : value.type = cacheValueString
      · simp only [if_pos hs] at hx
        exact hv x hx
      · simp only [if_neg hs, Option.mem_def, Option.some.injEq] at hx
        subst hx
        exact hv value rfl
  cases c with
  | set key type value size =>
    rintro x ⟨⟩
    rfl
  | get key => exact hv
  | inc key offset => exact hupdate _ offset
  | dec key offset => exact hupdate _ offset
  | del key =>
    intro x hx
    cases hx

/-- A call whose slot is free or its own does on the table what it does on the
    map. -/
theorem Refines.exec {t : HashTable R} {m : KeyMap R} (hr : Refines t m) (c : TableCall R)
    (hown : ∀ v ∈ t.slot (slotOf t.size c.key), v.key = c.key) :
    (c.exec t).1 = (KeyMap.exec c m).1 ∧ Refines (c.exec t).2 (KeyMap.exec c m).2 := by
  have hlookup := hr.represents.own hown
  have hslot : t.slot (t.index c.key) = m.lookup c.key := hlookup.symm
  rw [← hlookup] at hown
  rw [TableCall.exec_eq, keyMap_exec_eq, hslot]
  refine ⟨rfl, ?_, ?_⟩
  · refine hr.represents.put (by rw [← hlookup]; exact hown) (key_execAt c hown) ?_ ?_
    · exact t.slot_setSlot_self (t.index_lt c.key) _ _
    · intro i hi
      exact t.slot_setSlot_ne (Ne.symm hi) _ _
  · show TableCall.countAt c (m.lookup c.key) t.count = _
    rw [card_keys_put, ← hr.count]
    refine TableCall.countAt_eq c _ fun hsome => ?_
    rw [hr.count]
    exact Finset.card_pos.mpr ⟨c.key, Finmap.mem_keys.mpr (Finmap.lookup_isSome.mp hsome)⟩

/-- INC and DEC leave a foreign string and the map alone. -/
theorem Refines.exec_ignores {t : HashTable R} {m : KeyMap R} (hr : Refines t m)
    {c : TableCall R} {v : CacheValue R} (hslot : t.slot (slotOf t.size c.key) = some v)
    (hne : v.key ≠ c.key) (hig : c.Ignores v) :
    (c.exec t).1 = (KeyMap.exec c m).1 ∧ Refines (c.exec t).2 (KeyMap.exec c m).2 := by
  have hnone := hr.represents.foreign hslot hne
  have hupdate : ∀ (op : R → R → R) (key : List Byte) (offset : R),
      t.slot (slotOf t.size key) = some v → m.lookup key = none → v.type = cacheValueString →
      hashTableUpdate op t key offset = (none, t) ∧ m.update op key offset = (none, m) := by
    intro op key offset hslot hnone htype
    have hget : hashTableGet t key = some v := hslot
    constructor
    · simp only [hashTableUpdate, hget, if_pos htype]
    · simp only [KeyMap.update, hnone]
  cases c with
  | set key type value size => exact hig.elim
  | get key => exact hig.elim
  | del key => exact hig.elim
  | inc key offset =>
    obtain ⟨h1, h2⟩ := hupdate CacheValueReal.add key offset hslot hnone hig
    show (hashTableUpdate _ t key offset).1 = (m.update _ key offset).1 ∧
      Refines (hashTableUpdate _ t key offset).2 (m.update _ key offset).2
    rw [h1, h2]
    exact ⟨rfl, hr⟩
  | dec key offset =>
    obtain ⟨h1, h2⟩ := hupdate CacheValueReal.sub key offset hslot hnone hig
    show (hashTableUpdate _ t key offset).1 = (m.update _ key offset).1 ∧
      Refines (hashTableUpdate _ t key offset).2 (m.update _ key offset).2
    rw [h1, h2]
    exact ⟨rfl, hr⟩

/-- Any other call that meets a foreign value gives itself away: by its result,
    or by the count. -/
theorem Refines.exec_foreign {t : HashTable R} {m : KeyMap R} (hr : Refines t m)
    {c : TableCall R} {v : CacheValue R} (hslot : t.slot (slotOf t.size c.key) = some v)
    (hne : v.key ≠ c.key) (hig : ¬ c.Ignores v) :
    (c.exec t).1 ≠ (KeyMap.exec c m).1 ∨ (c.exec t).2.count ≠ (KeyMap.exec c m).2.keys.card := by
  have hnone := hr.represents.foreign hslot hne
  have hupdate : ∀ (op : R → R → R) (key : List Byte) (offset : R),
      t.slot (slotOf t.size key) = some v → m.lookup key = none → v.type ≠ cacheValueString →
      (hashTableUpdate op t key offset).1 ≠ (m.update op key offset).1 := by
    intro op key offset hslot hnone htype
    have hget : hashTableGet t key = some v := hslot
    simp only [hashTableUpdate, hget, if_neg htype, KeyMap.update, hnone]
    exact Option.some_ne_none _
  cases c with
  | set key type value size =>
    right
    have hget : t.slot (t.index key) = some v := hslot
    have hcard := card_keys_put m key
      (some { key := key, type := type, value := value.copyAs type size, length := size })
    have hmap : m.lookup key = none := hnone
    rw [hmap] at hcard
    show (hashTableSet t key type value size).2.count ≠ (put m key (some _)).keys.card
    rw [hcard, ← hr.count]
    simp only [hashTableSet, hget, HashTable.count_setSlot, Option.isNone_some, Bool.false_eq_true,
      if_false, Option.isSome_none, Bool.toNat_false, Option.isSome_some, Bool.toNat_true]
    omega
  | get key =>
    left
    show hashTableGet t key ≠ m.lookup key
    have hget : hashTableGet t key = some v := hslot
    have hmap : m.lookup key = none := hnone
    rw [hget, hmap]
    exact Option.some_ne_none v
  | inc key offset => exact Or.inl (hupdate _ key offset hslot hnone hig)
  | dec key offset => exact Or.inl (hupdate _ key offset hslot hnone hig)
  | del key =>
    left
    show (hashTableDel t key).1 ≠ (m.lookup key).isSome
    have hget : t.slot (t.index key) = some v := hslot
    have hmap : m.lookup key = none := hnone
    simp [hashTableDel, hget, hmap]

theorem Agrees.count_eq {calls : List (TableCall R)} {t : HashTable R} {m : KeyMap R}
    (h : Agrees calls t m) : t.count = m.keys.card := by
  cases calls with
  | nil => exact h
  | cons c calls => exact h.1

/-- A run from a table that holds the map agrees with it exactly when it is
    free of clashes. -/
theorem Refines.agrees_iff {t : HashTable R} {m : KeyMap R} (hr : Refines t m)
    (calls : List (TableCall R)) : Agrees calls t m ↔ ClashFree t.size calls m := by
  induction calls generalizing t m with
  | nil => exact ⟨fun _ => trivial, fun _ => hr.count⟩
  | cons c calls ih =>
    -- the slot of the call is its own or ignored, or it is neither
    have hstep : (∀ k v, m.lookup k = some v → slotOf t.size k = slotOf t.size c.key →
        k = c.key ∨ c.Ignores v) → (c.exec t).1 = (KeyMap.exec c m).1 ∧
          Refines (c.exec t).2 (KeyMap.exec c m).2 := by
      intro hfree
      by_cases hown : ∀ v ∈ t.slot (slotOf t.size c.key), v.key = c.key
      · exact hr.exec c hown
      · push Not at hown
        obtain ⟨v, hslot, hne⟩ := hown
        obtain ⟨k, hk, hhash, hkne⟩ := hr.represents.foreign_iff.mp ⟨hslot, hne⟩
        exact hr.exec_ignores hslot hne ((hfree k v hk hhash).resolve_left hkne)
    have hsize : (c.exec t).2.size = t.size := TableCall.size_exec c t
    constructor
    · rintro ⟨-, hresult, hrest⟩
      have hfree : ∀ k v, m.lookup k = some v → slotOf t.size k = slotOf t.size c.key →
          k = c.key ∨ c.Ignores v := by
        intro k v hk hhash
        by_contra hno
        rw [not_or] at hno
        obtain ⟨hslot, hne⟩ := hr.represents.foreign_iff.mpr ⟨k, hk, hhash, hno.1⟩
        rcases hr.exec_foreign hslot hne hno.2 with hdiff | hdiff
        · exact hdiff hresult
        · exact hdiff hrest.count_eq
      refine ⟨hfree, ?_⟩
      have hclash := (ih (hstep hfree).2).mp hrest
      rwa [hsize] at hclash
    · rintro ⟨hfree, hrest⟩
      obtain ⟨hresult, hr'⟩ := hstep hfree
      refine ⟨hr.count, hresult, (ih hr').mpr ?_⟩
      rwa [hsize]

/-- The hash table is a finite map from keys to values exactly on the runs in
    which no call meets in its slot a value of another key. -/
theorem hashTable_agrees_iff (size : ℕ) (hsize : 0 < size) (calls : List (TableCall R)) :
    Agrees calls (hashTableCreate R size hsize) ∅ ↔ ClashFree size calls ∅ :=
  (refines_create size hsize).agrees_iff calls

end Refine

/-- One key alone in the table. -/
theorem hashTable_agrees_a :
    Agrees [.set (ascii "a") cacheValueDecimal (.decimal 1) 0, .get (ascii "a")]
      (hashTableCreate ℚ 1000 (by norm_num)) ∅ := by
  refine (hashTable_agrees_iff 1000 (by norm_num) _).mpr ⟨fun k v hk _ => ?_, fun k v hk _ => ?_, ?_⟩
  · rw [Finmap.lookup_empty] at hk
    cases hk
  · by_contra hne
    rw [not_or] at hne
    have hlookup : (KeyMap.exec (.set (ascii "a") cacheValueDecimal (.decimal 1) 0)
        (∅ : KeyMap ℚ)).2.lookup k = none :=
      (Finmap.lookup_insert_of_ne _ hne.1).trans (Finmap.lookup_empty k)
    rw [hlookup] at hk
    cases hk
  · trivial

/-- Two keys with one slot: the second is found although it was never set. -/
theorem hashTable_not_agrees_ab :
    ¬ Agrees [.set (ascii "a") cacheValueDecimal (.decimal 1) 0, .get (ascii "b")]
      (hashTableCreate ℚ 1 Nat.one_pos) ∅ := by
  rintro ⟨-, -, -, hget, -⟩
  have hfound : (hashTableGet (hashTableSet (hashTableCreate ℚ 1 Nat.one_pos) (ascii "a")
      cacheValueDecimal (.decimal 1) 0).2 (ascii "b")).isSome = true := by decide
  have hmap : (KeyMap.exec (.set (ascii "a") cacheValueDecimal (.decimal 1) 0)
      (∅ : KeyMap ℚ)).2.lookup (ascii "b") = none := by
    have hne : ascii "b" ≠ ascii "a" := by decide
    exact (Finmap.lookup_insert_of_ne _ hne).trans (Finmap.lookup_empty _)
  have hsome := congrArg Option.isSome hget
  rw [show (TableCall.exec (.get (ascii "b")) _).1 = hashTableGet _ (ascii "b") from rfl] at hsome
  exact absurd (hfound.symm.trans (hsome.trans (congrArg Option.isSome hmap))) (by decide)

end Memuncached
