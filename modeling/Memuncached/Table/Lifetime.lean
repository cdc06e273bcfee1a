import Memuncached.Table.OwnedCalls

/-!
# The life of a table

A table from `hash_table_create` to `hash_table_destroy`, with any calls between.

* `lifetime_spec`: it faults exactly when a `hash_table_set` with an unknown type
  goes over a value. Otherwise nothing is used after it was freed, nothing freed
  twice and nothing left over, and the calls answer as those on a value do.
* `readLater_spec`: a pointer that `hash_table_get` returned can be read until a
  DEL hits its slot, and not after.
-/

namespace Memuncached.OnHeap

open Separation Assertion

section Lifetime

variable {R : Type} [CacheValueReal R]

/-! ## Programs -/

section Programs

variable {α : Type} {t : ℕ} {gs : List SlotPtr} {T : HashTable R} {found : Found R}

/-- A program on the table at `t`. -/
def perform (found : Found R) (t : ℕ) : TableProg R α → HeapM (Block R) α
  | .ret a => pure a
  | .call c k => call found t c >>= fun r => perform found t (k r)

/-- A call of the program leaves a dangling pointer. -/
def StrandsIn : TableProg R α → HashTable R → Prop
  | .ret _, _ => False
  | .call c k, T => Strands c (T.slot (T.index c.key)) ∨ StrandsIn (k (c.exec T).1) (c.exec T).2

/-- A call of the program is a DEL on slot `i`. -/
def DeletesAt (i : ℕ) : TableProg R α → HashTable R → Prop
  | .ret _, _ => False
  | .call c k, T =>
    (∃ key, c = .del key ∧ T.index key = i) ∨ DeletesAt i (k (c.exec T).1) (c.exec T).2

omit [CacheValueReal R] in
/-- A slot keeps its pointer through a call that is no DEL on it. -/
theorem addr_kept {c : TableCall R} {g' : SlotPtr} {i q : ℕ}
    (hmoves : Moves c (T.slot (T.index c.key)) (ptrAt gs (T.index c.key)) g')
    (hq : (ptrAt gs i).addr = some q) (hdel : ¬ ∃ key, c = .del key ∧ T.index key = i) :
    (ptrAt (gs.set (T.index c.key) g') i).addr = some q := by
  by_cases hi : T.index c.key = i
  · subst hi
    have hlt : T.index c.key < gs.length := by
      by_contra hge
      rw [ptrAt, List.getD_eq_getElem?_getD, List.getElem?_eq_none (by omega)] at hq
      cases hq
    rw [ptrAt_set_self hlt]
    refine hmoves.kept (fun key hc => hdel ⟨key, hc, ?_⟩) q hq
    rw [hc]
    rfl
  · rw [ptrAt_set_ne hi]
    exact hq

/-- A program that leaves no dangling pointer does not fault, and does to the
    table what it does to the value. A slot keeps its pointer until it is deleted. -/
theorem perform_spec {p : TableProg R α} (hT : Kinds T) (hp : ¬ StrandsIn p T) (hgs : InOrder gs) :
    Triple (tableRep t gs T) (perform found t p) fun a => ex fun gs' =>
      sep (fact (a = (CallTree.run TableCall.exec p T).1 ∧ InOrder gs' ∧
          ∀ i q, (ptrAt gs i).addr = some q → ¬ DeletesAt i p T → (ptrAt gs' i).addr = some q))
        (sep garbage (tableRep t gs' (CallTree.run TableCall.exec p T).2)) := by
  induction p generalizing gs T with
  | ret a =>
    refine Triple.pure fun m hm => ⟨gs, fact_sep.mpr ⟨⟨rfl, hgs, fun i q hq _ => hq⟩, ?_⟩⟩
    exact garbage_intro m hm
  | call c k ih =>
    obtain ⟨hc, hk⟩ := not_or.mp hp
    refine Triple.bind (call_spec c hT fun h => hgs _ h.1) fun r => Triple.ex fun g' => ?_
    refine Triple.fact fun hr => ?_
    obtain ⟨rfl, hmoves⟩ := hr
    have hg' : ¬ g'.Dangles := by
      rw [hmoves.dangles]
      exact not_or.mpr ⟨hgs _, hc⟩
    have hrest := ih (c.exec T).1 (hT.exec c) hk (inOrder_set (i := T.index c.key) hgs hg')
    rw [sep_comm]
    refine (hrest.frame _).post fun a m hm => ?_
    rw [ex_sep] at hm
    obtain ⟨gs', hm⟩ := hm
    rw [sep_assoc] at hm
    obtain ⟨⟨ha, horder, hkept⟩, hm⟩ := fact_sep.mp hm
    refine ⟨gs', fact_sep.mpr ⟨⟨ha, horder, fun i q hq hdel => ?_⟩, ?_⟩⟩
    · obtain ⟨hdel, hlater⟩ := not_or.mp hdel
      exact hkept i q (addr_kept hmoves hq hdel) hlater
    · rw [sep_comm, ← sep_assoc] at hm
      refine sep_mono (fun m hm => ?_) (fun _ h => h) m hm
      exact garbage_sep_garbage m (sep_mono (released_garbage c _) (fun _ h => h) m hm)

/-- A program that deletes on a slot frees the value that was in it. -/
theorem perform_frees {p : TableProg R α} (hT : Kinds T) (hp : ¬ StrandsIn p T) (hgs : InOrder gs)
    {i q : ℕ} (hq : (ptrAt gs i).addr = some q) (hdel : DeletesAt i p T) :
    Triple (tableRep t gs T) (perform found t p) fun _ => ex fun S => sep (freed q) S := by
  induction p generalizing gs T with
  | ret a => exact hdel.elim
  | call c k ih =>
    obtain ⟨hc, hk⟩ := not_or.mp hp
    refine Triple.bind (call_spec c hT fun h => hgs _ h.1) fun r => Triple.ex fun g' => ?_
    refine Triple.fact fun hr => ?_
    obtain ⟨rfl, hmoves⟩ := hr
    have hg' : ¬ g'.Dangles := by
      rw [hmoves.dangles]
      exact not_or.mpr ⟨hgs _, hc⟩
    by_cases hnow : ∃ key, c = .del key ∧ T.index key = i
    · obtain ⟨key, rfl, rfl⟩ := hnow
      have hvalue : ptrAt gs (T.index key) = .value q := value_of_addr (hgs _) hq
      have hrest : Triple _ (perform found t _) _ :=
        perform_spec (hT.exec (.del key)) hk (inOrder_set (i := T.index key) hgs hg')
      rw [sep_comm]
      refine (hrest.frame _).post fun a m hm => ?_
      rw [TableCall.key, hvalue, released, sep_comm, sep_assoc] at hm
      exact ⟨_, hm⟩
    · have hlater := hdel.resolve_left hnow
      have hrest := @ih (c.exec T).1 (gs.set (T.index c.key) g') _ (hT.exec c) hk
        (inOrder_set hgs hg') (addr_kept hmoves hq hnow) hlater
      rw [sep_comm]
      refine (hrest.frame _).post fun a m hm => ?_
      rw [ex_sep] at hm
      obtain ⟨S, hm⟩ := hm
      rw [sep_assoc] at hm
      exact ⟨_, hm⟩

/-- A pointer that dangles, or will, is freed again when the table is destroyed. -/
theorem perform_faults {p : TableProg R α} (hT : Kinds T)
    (hp : (∃ i, (ptrAt gs i).Dangles) ∨ StrandsIn p T) :
    Faults (tableRep t gs T)
      (perform found t p >>= fun a => hashTableDestroy t >>= fun _ => pure a) := by
  induction p generalizing gs T with
  | ret a =>
    obtain ⟨i, hi⟩ := hp.resolve_right id
    rw [perform, pure_bind]
    exact Faults.bind (hashTableDestroy_faults hi)
  | call c k ih =>
    rw [perform, bind_assoc]
    by_cases hg : (ptrAt gs (T.index c.key)).Dangles ∧ Frees c
    · exact Faults.bind (call_spec_faults c hg)
    · refine Faults.implied (φ := gs.length = T.size) ?_ fun hlen => ?_
      · rintro m ⟨array, hm⟩
        exact (fact_sep.mp hm).1
      have hlt : T.index c.key < gs.length := by
        rw [hlen]
        exact T.index_lt c.key
      refine Faults.after (call_spec c hT hg) fun r => Faults.ex fun g' => Faults.fact fun hr => ?_
      obtain ⟨rfl, hmoves⟩ := hr
      rw [sep_comm]
      refine (ih _ (hT.exec c) ?_).frame _
      rcases hp with ⟨i, hi⟩ | hc | hk
      · left
        by_cases hij : T.index c.key = i
        · subst hij
          refine ⟨T.index c.key, ?_⟩
          rw [ptrAt_set_self hlt]
          exact hmoves.dangles.mpr (Or.inl hi)
        · refine ⟨i, ?_⟩
          rw [ptrAt_set_ne hij]
          exact hi
      · left
        refine ⟨T.index c.key, ?_⟩
        rw [ptrAt_set_self hlt]
        exact hmoves.dangles.mpr (Or.inr hc)
      · exact Or.inr hk

/-! ## From `hash_table_create` to `hash_table_destroy` -/

/-- A program between `hash_table_create` and `hash_table_destroy`. -/
def lifetime (found : Found R) (size : ℕ) (p : TableProg R α) : HeapM (Block R) α := do
  let t ← hashTableCreate found size
  let a ← perform found t p
  hashTableDestroy t
  pure a

omit [CacheValueReal R] in
theorem kinds_hashTableCreate (size : ℕ) (hsize : 0 < size) :
    Kinds (Memuncached.hashTableCreate R size hsize) := by
  intro i x hx
  rw [slot_hashTableCreate] at hx
  cases hx

/-- Calls like those of the server leave no dangling pointer. -/
theorem not_strandsIn {p : TableProg R α} (hp : CallTree.Calls TableCall.Valid p)
    (T : HashTable R) : ¬ StrandsIn p T := by
  induction p generalizing T with
  | ret a => exact fun h => h
  | call c k ih =>
    rintro (hc | hk)
    · cases c with
      | set key type d n =>
        cases hv : T.slot (T.index key) with
        | none =>
          rw [TableCall.key, hv] at hc
          exact hc
        | some v =>
          rw [TableCall.key, hv] at hc
          rcases hp.1 with ⟨ht, -⟩ | ⟨ht, -⟩ | ⟨ht, -⟩
          · exact hc.1.1 ht
          · exact hc.1.2.1 ht
          · exact hc.1.2.2 ht
      | _ => exact hc
    · exact ih _ (hp.2 _) _ hk

/-- What new memory holds, say. -/
def someFound : Found ℚ where
  table := { table := 3, count := 4, size := 5 }
  value := { key := [1], type := 7, value := some 9, length := 2 }
  data := .decimal 6

/-- Set `a`, and set it again with the type 9. -/
def setTwice : TableProg ℚ Unit :=
  .call (.set (ascii "a") cacheValueDecimal (.decimal 7) 0) fun _ =>
    .call (.set (ascii "a") 9 (.decimal 8) 0) fun _ => .ret ()

/-- Set `a`, and get it. -/
def setAndGet : TableProg ℚ (Option (CacheValue ℚ)) :=
  .call (.set (ascii "a") cacheValueDecimal (.decimal 7) 0) fun _ =>
    .call (.get (ascii "a")) .ret

theorem setTwice_strands : StrandsIn setTwice (Memuncached.hashTableCreate ℚ 1 Nat.one_pos) := by
  right
  left
  exact ⟨by decide, by decide⟩

theorem setAndGet_valid : CallTree.Calls TableCall.Valid setAndGet :=
  ⟨Or.inl ⟨rfl, rfl⟩, fun _ => ⟨trivial, fun _ => trivial⟩⟩

/-- A caller of `hash_table_get` that reads through the pointer after other calls
    (`p₂`, of any threads) on the table. -/
def readLater {β : Type} (found : Found R) (size : ℕ) (p₁ : TableProg R α) (key : List Byte)
    (p₂ : TableProg R β) : HeapM (Block R) (Option (CacheValue R)) := do
  let t ← hashTableCreate found size
  let _ ← perform found t p₁
  let r ← hashTableGet t key
  let _ ← perform found t p₂
  readValue r

/-- The table a program leaves. -/
def tableAfter (p : TableProg R α) (T : HashTable R) : HashTable R :=
  (CallTree.run TableCall.exec p T).2

theorem kinds_tableAfter {p : TableProg R α} (hT : Kinds T) : Kinds (tableAfter p T) := by
  induction p generalizing T with
  | ret a => exact hT
  | call c k ih => exact ih _ (hT.exec c)

theorem index_tableAfter (p : TableProg R α) (T : HashTable R) (key : List Byte) :
    (tableAfter p T).index key = T.index key := by
  induction p generalizing T with
  | ret a => rfl
  | call c k ih => exact (ih _ _).trans (TableCall.index_exec c T key)

theorem size_tableAfter (p : TableProg R α) (T : HashTable R) :
    (tableAfter p T).size = T.size := by
  induction p generalizing T with
  | ret a => rfl
  | call c k ih => exact (ih _ _).trans (TableCall.size_exec c T)

omit [CacheValueReal R] in
/-- Reading a slot through the pointer it holds. -/
theorem readValue_tableRep (hT : Kinds T) {i : ℕ} (hi : i < T.size) {a : Option ℕ}
    (ha : a = (ptrAt gs i).addr) :
    Triple (tableRep t gs T) (readValue a) fun r => sep (fact (r = T.slot i)) (tableRep t gs T) := by
  refine triple_open_slot hi fun array hlen => ?_
  rw [ha]
  refine (read_onSlot (hT i)).post fun r m hm => ?_
  exact sep_mono (fun _ h => h) (tableRep_close_self hi hlen array) m hm

omit [CacheValueReal R] in
theorem get_tableRep (key : List Byte) :
    Triple (tableRep t gs T) (hashTableGet t key) fun r =>
      sep (fact (r = (ptrAt gs (T.index key)).addr)) (tableRep t gs T) := by
  have hi := T.index_lt key
  refine triple_open_slot hi fun array hlen => ?_
  have hlt : T.index key < gs.length := by rw [hlen]; exact hi
  refine (hashTableGet_spec (getElem?_addr hlt)).post fun r m hm => ?_
  exact sep_mono (fun _ h => h) (tableRep_close_self hi hlen array) m hm

omit [CacheValueReal R] in
/-- A slot holds NULL exactly when it is empty. -/
theorem addr_eq_none {i : ℕ} (hi : i < T.size) :
    ∀ m, tableRep t gs T m → ((ptrAt gs i).addr = none ↔ T.slot i = none) := by
  rintro m ⟨array, hm⟩
  obtain ⟨hlen, hm⟩ := fact_sep.mp hm
  rw [all_slots hlen hi] at hm
  obtain ⟨-, -, -, -, -, -, -, -, -, -, m', -, -, -, hslot, -⟩ := hm
  cases hg : ptrAt gs i with
  | null =>
    cases hv : T.slot i with
    | none => exact iff_of_true rfl rfl
    | some x =>
      rw [hg, hv] at hslot
      exact hslot.1.elim
  | value p =>
    cases hv : T.slot i with
    | none =>
      rw [hg, hv] at hslot
      exact hslot.1.elim
    | some x => exact iff_of_false (Option.some_ne_none p) (Option.some_ne_none x)
  | dangling p q =>
    cases hv : T.slot i with
    | none =>
      rw [hg, hv] at hslot
      exact hslot.1.elim
    | some x => exact iff_of_false (Option.some_ne_none p) (Option.some_ne_none x)

/-- Between the two there was a value and a DEL on its slot. -/
def FreedMeanwhile {β : Type} (key : List Byte) (p : TableProg R β) (T : HashTable R) : Prop :=
  Memuncached.hashTableGet T key ≠ none ∧ DeletesAt (T.index key) p T

variable {β : Type} {p₁ : TableProg R α} {p₂ : TableProg R β} {size : ℕ}

/-- The part of `readLater` behind its first program. -/
theorem readLater_tail (found : Found R) (hT : Kinds T) (hgs : InOrder gs) (key : List Byte)
    (h2 : ¬ StrandsIn p₂ T) :
    (FreedMeanwhile key p₂ T → Faults (tableRep t gs T)
      (hashTableGet t key >>= fun r => perform found t p₂ >>= fun _ => readValue r)) ∧
    (¬ FreedMeanwhile key p₂ T → Triple (tableRep t gs T)
      (hashTableGet t key >>= fun r => perform found t p₂ >>= fun _ => readValue r) fun v =>
        sep (fact (v = if Memuncached.hashTableGet T key = none then none
          else Memuncached.hashTableGet (tableAfter p₂ T) key)) (ex fun S => S)) := by
  have hi := T.index_lt key
  constructor
  · rintro ⟨hsome, hdel⟩
    refine Faults.implied (addr_eq_none hi) fun hnull => ?_
    refine Faults.after (get_tableRep key) fun r => Faults.fact fun hr => ?_
    obtain ⟨q, hq⟩ := Option.ne_none_iff_exists'.mp (hnull.not.mpr hsome)
    rw [hr, hq]
    refine Faults.after (perform_frees hT h2 hgs hq hdel) fun _ => Faults.ex fun S => ?_
    exact (readValue_faults q).frame S
  · intro hfree
    refine Triple.implied (addr_eq_none hi) fun hnull => ?_
    refine Triple.bind (get_tableRep key) fun r => Triple.fact fun hr => ?_
    refine Triple.bind (perform_spec hT h2 hgs) fun b => Triple.ex fun gs' => ?_
    refine Triple.fact fun hafter => ?_
    by_cases hnone : Memuncached.hashTableGet T key = none
    · rw [if_pos hnone, hr, hnull.mpr hnone]
      exact Triple.pure fun m hm => fact_sep.mpr ⟨rfl, _, hm⟩
    · rw [if_neg hnone]
      obtain ⟨q, hq⟩ := Option.ne_none_iff_exists'.mp (hnull.not.mpr hnone)
      have hkept := hafter.2.2 _ q hq fun hdel => hfree ⟨hnone, hdel⟩
      have hi' : T.index key < (tableAfter p₂ T).size := by
        rw [size_tableAfter]
        exact hi
      rw [sep_comm]
      refine ((readValue_tableRep (kinds_tableAfter hT) hi' (hr.trans (hq.trans hkept.symm))).frame
        garbage).post fun v m hm => ?_
      rw [sep_assoc] at hm
      obtain ⟨hv, hm⟩ := fact_sep.mp hm
      refine fact_sep.mpr ⟨?_, _, hm⟩
      rw [hv, Memuncached.hashTableGet, index_tableAfter]

/-- Delete `a`. -/
def delA : TableProg ℚ Bool := .call (.del (ascii "a")) .ret

theorem delA_valid : CallTree.Calls TableCall.Valid delA := ⟨trivial, fun _ => trivial⟩

end Programs

end Lifetime

end Memuncached.OnHeap
