import Memuncached.Table.Ownership

/-!
# Calls on a table in memory

What a call does to the blocks of a table, in the words of what it does to the
table as a value.

* `call_spec`: a call answers as `TableCall.exec` does and leaves the blocks of the
  table that leaves, with the pointer of its slot moved as `Moves` says.
* `call_spec_faults`: a SET or DEL on a value whose own pointer dangles faults.
* `hashTableCreate_spec`, `hashTableDestroy_spec`: where the blocks come from and
  where they go.
-/

namespace Memuncached.OnHeap

open Separation Assertion

section OwnedCalls

variable {R : Type} [CacheValueReal R]

/-! ## One call -/

/-- The call frees what the value under its key points to. -/
def Frees : TableCall R → Prop
  | .set _ _ _ _ => True
  | .del _ => True
  | _ => False

/-- The call frees the contents of the value and leaves the pointer to them. -/
def Strands : TableCall R → Option (CacheValue R) → Prop
  | .set _ type _ _, some v => UnknownType type ∧ v.value ≠ .null
  | _, _ => False

/-- What a call makes of the pointer of its slot. -/
structure Moves (c : TableCall R) (v : Option (CacheValue R)) (g g' : SlotPtr) : Prop where
  dangles : g'.Dangles ↔ g.Dangles ∨ Strands c v
  kept : (∀ key, c ≠ .del key) → ∀ p, g.addr = some p → g'.addr = some p

omit [CacheValueReal R] in
theorem Moves.refl {c : TableCall R} {v : Option (CacheValue R)} (h : ¬ Strands c v)
    (g : SlotPtr) : Moves c v g g := ⟨by simp [h], fun _ _ hp => hp⟩

/-- What a call frees of the value it finds. -/
def released : TableCall R → SlotPtr → Assertion (Block R)
  | .del _, .value p => sep (freed p) garbage
  | _, _ => garbage

theorem kindOk_update {op : R → R → R} {offset : R} {v : CacheValue R} (hv : KindOk v) :
    KindOk (v.update op offset) := by
  by_cases hd : v.type = cacheValueDecimal
  · have hval : (v.update op offset).value ≠ .null := by
      rw [CacheValue.update]
      simp [hd]
    exact iff_of_false hval fun hu => hu.1 hd
  · by_cases hr : v.type = cacheValueReal
    · have hval : (v.update op offset).value ≠ .null := by
        rw [CacheValue.update]
        simp [hr, show cacheValueReal ≠ cacheValueDecimal by decide]
      exact iff_of_false hval fun hu => hu.2.1 hr
    · rw [update_other op offset hd hr]
      exact hv

/-- The contents of a slot are of the kind their type says after a call, too. -/
theorem execAt_kindOk (c : TableCall R) {v : Option (CacheValue R)} (hv : ∀ x ∈ v, KindOk x) :
    ∀ x ∈ (c.execAt v).2, KindOk x := by
  have hupdate : ∀ (op : R → R → R) (offset : R), ∀ x ∈ (TableCall.updateAt op offset v).2,
      KindOk x := by
    intro op offset x hx
    cases v with
    | none => cases hx
    | some v =>
      unfold TableCall.updateAt at hx
      dsimp only at hx
      by_cases hs : v.type = cacheValueString
      · rw [if_pos hs] at hx
        exact hv x hx
      · rw [if_neg hs] at hx
        obtain rfl : v.update op offset = x := Option.some.inj hx
        exact kindOk_update (hv v rfl)
  cases c with
  | set key type value size =>
    intro x hx
    obtain rfl := Option.some.inj hx
    exact copyAs_eq_null
  | get key => exact hv
  | inc key offset => exact hupdate _ offset
  | dec key offset => exact hupdate _ offset
  | del key => exact fun x hx => by cases hx

section OnSlot

variable {t array count size : ℕ} {slots : List (Option ℕ)} {S : Assertion (Block R)}
  {found : Found R} {g : SlotPtr} {v : Option (CacheValue R)}

omit [CacheValueReal R] in
/-- The pointer of a value is NULL exactly when it has no contents. -/
theorem triple_dataRep {α : Type} {c : HeapM (Block R) α} {Q : α → Assertion (Block R)}
    {P : Assertion (Block R)} {d : CacheData R} {q : Option ℕ}
    (h : (q = none ↔ d = .null) → Triple (sep (dataRep d q) P) c Q) :
    Triple (sep (dataRep d q) P) c Q := by
  cases q with
  | none =>
    refine Triple.fact fun hd => ?_
    refine (h (iff_of_true rfl hd)).pre fun m hm => ?_
    exact fact_sep.mpr ⟨hd, hm⟩
  | some q =>
    rw [dataRep, sep_assoc] at h ⊢
    refine Triple.fact fun hd => ?_
    refine (h (iff_of_false (Option.some_ne_none q) hd)).pre fun m hm => ?_
    exact fact_sep.mpr ⟨hd, hm⟩

omit [CacheValueReal R] in
/-- A slot is empty, or there is a value in it. -/
theorem triple_slot {α : Type} {c : HeapM (Block R) α} {Q : α → Assertion (Block R)}
    (hnull : g = .null → v = none → Triple (tableAnd t array count size slots S) c Q)
    (hvalue : ∀ p x q, g = .value p → v = some x → (q = none ↔ x.value = .null) →
      Triple (tableAnd t array count size slots (sep (valueCell p x q) (sep (dataRep x.value q) S)))
        c Q)
    (hdangling : ∀ p q x, g = .dangling p q → v = some x → x.value = .null →
      Triple (tableAnd t array count size slots (sep (valueCell p x (some q)) (sep (freed q) S)))
        c Q) :
    Triple (tableAnd t array count size slots (sep (slotRep g v) S)) c Q := by
  rw [tableAnd_third]
  cases g with
  | null =>
    cases v with
    | none => exact (hnull rfl rfl).pre fun m hm => by rwa [slotRep, emp_sep] at hm
    | some x => exact Triple.fact False.elim
  | value p =>
    cases v with
    | none => exact Triple.fact False.elim
    | some x =>
      rw [slotRep, ex_sep]
      refine Triple.ex fun q => ?_
      rw [sep_assoc, sep_left_comm]
      refine triple_dataRep fun hq => ?_
      rw [sep_left_comm, ← tableAnd_third, ← tableAnd_third]
      exact hvalue p x q rfl rfl hq
  | dangling p q =>
    cases v with
    | none => exact Triple.fact False.elim
    | some x =>
      rw [slotRep, sep_assoc, sep_assoc, ← tableAnd_third, ← tableAnd_third]
      exact Triple.fact fun hx => hdangling p q x rfl rfl hx

/-- The table behind a call that found `v` in its slot, with the pointer `g`. -/
def afterCall (c : TableCall R) (g : SlotPtr) (v : Option (CacheValue R))
    (t array count size : ℕ) (slots : List (Option ℕ)) (S : Assertion (Block R)) (r : c.Result) :
    Assertion (Block R) :=
  ex fun g' => sep (fact (r = (c.execAt v).1 ∧ Moves c v g g'))
    (tableAnd t array (c.countAt v count) size
      (slots.set ((fnv1a c.key).toNat % size) g'.addr)
      (sep (slotRep g' (c.execAt v).2) (sep (released c g) S)))

omit [CacheValueReal R] in
theorem set_of_getElem? {a : Option ℕ} {i : ℕ} (h : slots[i]? = some a) : slots.set i a = slots := by
  obtain ⟨hlt, rfl⟩ := List.getElem?_eq_some_iff.mp h
  exact List.set_getElem_self hlt

omit [CacheValueReal R] in
theorem garbage_intro {P : Assertion (Block R)} : ∀ m, P m → sep garbage P m := by
  intro m hm
  refine sep_mono emp_garbage (fun _ h => h) m ?_
  rwa [emp_sep]

/-- A call that finds its slot in order and leaves it so. -/
theorem afterCall_keep {c : TableCall R} {r : c.Result} (hr : r = (c.execAt v).1)
    (hcount : c.countAt v count = count) (hmoves : Moves c v g g)
    (hreleased : released c g = garbage)
    (ha : slots[(fnv1a c.key).toNat % size]? = some g.addr) :
    ∀ m, tableAnd t array count size slots (sep (slotRep g (c.execAt v).2) S) m →
      afterCall c g v t array count size slots S r m := by
  intro m hm
  refine ⟨g, fact_sep.mpr ⟨⟨hr, hmoves⟩, ?_⟩⟩
  rw [hcount, hreleased, set_of_getElem? ha, sep_left_comm, tableAnd_third]
  exact garbage_intro m hm

/-! ### GET, INC and DEC -/

omit [CacheValueReal R] in
theorem read_onSlot (hv : ∀ x ∈ v, KindOk x) :
    Triple (tableAnd t array count size slots (sep (slotRep g v) S)) (readValue g.addr) fun r =>
      sep (fact (r = v)) (tableAnd t array count size slots (sep (slotRep g v) S)) := by
  rw [tableAnd_third]
  refine ((readValue_slot hv).frame _).post fun r m hm => ?_
  rwa [sep_assoc] at hm

omit [CacheValueReal R] in
theorem get_onSlot {key : List Byte} (hv : ∀ x ∈ v, KindOk x)
    (ha : slots[(fnv1a key).toNat % size]? = some g.addr) :
    Triple (tableAnd t array count size slots (sep (slotRep g v) S))
      (hashTableGet t key >>= readValue) fun r =>
        sep (fact (r = v)) (tableAnd t array count size slots (sep (slotRep g v) S)) := by
  refine Triple.bind (hashTableGet_spec ha) fun a => Triple.fact fun hr => ?_
  rw [hr]
  exact read_onSlot hv

omit [CacheValueReal R] in
/-- A value with its block is what a slot points to. -/
theorem tableAnd_value {p : ℕ} {x : CacheValue R} {q : Option ℕ} :
    ∀ m, tableAnd t array count size slots (sep (valueCell p x q) (sep (dataRep x.value q) S)) m →
      tableAnd t array count size slots (sep (slotRep (.value p) (some x)) S) m := by
  intro m hm
  rw [← sep_assoc] at hm
  exact tableAnd_mono (sep_mono (fun _ h => slotRep_value q h) fun _ h => h) m hm

omit [CacheValueReal R] in
theorem tableAnd_dangling {p q : ℕ} {x : CacheValue R} (hx : x.value = .null) :
    ∀ m, tableAnd t array count size slots (sep (valueCell p x (some q)) (sep (freed q) S)) m →
      tableAnd t array count size slots (sep (slotRep (.dangling p q) (some x)) S) m := by
  intro m hm
  rw [← sep_assoc] at hm
  exact tableAnd_mono (sep_mono (fun _ h => fact_sep.mpr ⟨hx, h⟩) fun _ h => h) m hm

theorem updateAt_string {op : R → R → R} {offset : R} {x : CacheValue R}
    (hs : x.type = cacheValueString) : TableCall.updateAt op offset (some x) = (none, some x) :=
  if_pos hs

theorem updateAt_number {op : R → R → R} {offset : R} {x : CacheValue R}
    (hs : x.type ≠ cacheValueString) : TableCall.updateAt op offset (some x) =
      (some (x.update op offset), some (x.update op offset)) := if_neg hs

theorem update_onSlot (op : R → R → R) (offset : R) {key : List Byte} (hv : ∀ x ∈ v, KindOk x)
    (ha : slots[(fnv1a key).toNat % size]? = some g.addr) :
    Triple (tableAnd t array count size slots (sep (slotRep g v) S))
      (hashTableUpdate op t key offset >>= readValue) fun r =>
        sep (fact (r = (TableCall.updateAt op offset v).1)) (tableAnd t array count size slots
          (sep (slotRep g (TableCall.updateAt op offset v).2) S)) := by
  refine triple_slot ?_ ?_ ?_
  · rintro rfl rfl
    refine Triple.bind (hashTableUpdate_null ha) fun r => Triple.fact fun hr => ?_
    rw [hr]
    refine Triple.pure fun m hm => fact_sep.mpr ⟨rfl, ?_⟩
    rwa [TableCall.updateAt, slotRep, emp_sep]
  · rintro p x q rfl rfl hq
    have hx := hv x rfl
    by_cases hs : x.type = cacheValueString
    · rw [updateAt_string hs]
      refine Triple.bind (hashTableUpdate_string ha hs) fun r => Triple.fact fun hr => ?_
      rw [hr]
      exact Triple.pure fun m hm => fact_sep.mpr ⟨rfl, tableAnd_value m hm⟩
    · rw [updateAt_number hs]
      refine Triple.bind (hashTableUpdate_value ha hs hx) fun r => Triple.fact fun hr => ?_
      rw [hr]
      refine (read_onSlot (g := .value p) fun y hy => ?_).pre tableAnd_value
      obtain rfl := Option.some.inj hy
      exact kindOk_update hx
  · rintro p q x rfl rfl hnull
    have hu := (hv x rfl).mp hnull
    rw [updateAt_number hu.2.2, update_other op offset hu.1 hu.2.1]
    refine Triple.bind (hashTableUpdate_unknown ha hu) fun r => Triple.fact fun hr => ?_
    rw [hr]
    exact (read_onSlot (g := .dangling p q) hv).pre (tableAnd_dangling hnull)

/-! ### DEL and SET -/

omit [CacheValueReal R] in
theorem del_onSlot {key : List Byte} (hg : ¬ g.Dangles)
    (ha : slots[(fnv1a key).toNat % size]? = some g.addr) :
    Triple (tableAnd t array count size slots (sep (slotRep g v) S)) (hashTableDel t key) fun r =>
      sep (fact (r = v.isSome)) (tableAnd t array (if v.isNone then count else count - 1) size
        (slots.set ((fnv1a key).toNat % size) none)
        (sep (released (.del key) g) S)) := by
  refine triple_slot ?_ ?_ ?_
  · rintro rfl rfl
    refine (hashTableDel_null ha).post fun r m hm => ?_
    obtain ⟨hr, hm⟩ := fact_sep.mp hm
    refine fact_sep.mpr ⟨hr, ?_⟩
    have hset : slots.set ((fnv1a key).toNat % size) none = slots := set_of_getElem? ha
    rw [hset, tableAnd_third]
    exact garbage_intro m hm
  · rintro p x q rfl rfl hq
    refine (hashTableDel_value ha).post fun r m hm => ?_
    obtain ⟨hr, hm⟩ := fact_sep.mp hm
    refine fact_sep.mpr ⟨hr, ?_⟩
    rw [← sep_assoc] at hm
    exact tableAnd_mono (sep_mono (sep_mono (fun _ h => h) (freedRep_garbage q)) fun _ h => h) m hm
  · rintro p q x rfl
    exact absurd trivial hg

/-- What the call finds and what it leaves are one table. -/
theorem set_onSlot {key : List Byte} (type : UInt8) (d : CacheData R) (n : ℕ) (hg : ¬ g.Dangles)
    (ha : slots[(fnv1a key).toNat % size]? = some g.addr) :
    Triple (tableAnd t array count size slots (sep (slotRep g v) S))
      (hashTableSet found t key type d n)
      (afterCall (.set key type d n) g v t array count size slots S) := by
  refine triple_slot ?_ ?_ ?_
  · rintro rfl rfl
    refine (hashTableSet_null type d n ha).post fun r m hm => ?_
    obtain ⟨p, hm⟩ := hm
    obtain ⟨hr, hm⟩ := fact_sep.mp hm
    refine ⟨.value p, fact_sep.mpr ⟨⟨hr, ⟨?_, fun _ p' hp => by cases hp⟩⟩, hm⟩⟩
    exact iff_of_false (fun h => h) fun h => h.elim (fun h => h) fun h => h
  · rintro p x q rfl rfl hq
    refine (hashTableSet_value type d n ha).post fun r m hm => ?_
    obtain ⟨hr, hm⟩ := fact_sep.mp hm
    refine ⟨setPtr p type q, fact_sep.mpr ⟨⟨hr, ⟨?_, fun _ p' hp => ?_⟩⟩, ?_⟩⟩
    · have hne : q ≠ none ↔ x.value ≠ .null := hq.not
      rw [setPtr_dangles, Strands, hne]
      exact (or_iff_right (fun h => h)).symm
    · rw [setPtr_addr]
      exact hp
    · have hset : slots.set ((fnv1a key).toNat % size) (setPtr p type q).addr = slots := by
        rw [setPtr_addr]
        exact set_of_getElem? ha
      show tableAnd t array count size
        (slots.set ((fnv1a key).toNat % size) (setPtr p type q).addr) _ m
      rw [hset]
      exact hm
  · rintro p q x rfl
    exact absurd trivial hg

/-- A call on a table whose slot is in order, or one that frees nothing. -/
theorem call_onSlot (c : TableCall R) (hv : ∀ x ∈ v, KindOk x) (hg : ¬ (g.Dangles ∧ Frees c))
    (ha : slots[(fnv1a c.key).toNat % size]? = some g.addr) :
    Triple (tableAnd t array count size slots (sep (slotRep g v) S)) (call found t c)
      (afterCall c g v t array count size slots S) := by
  cases c with
  | set key type d n => exact set_onSlot type d n (fun h => hg ⟨h, trivial⟩) ha
  | get key =>
    refine (get_onSlot hv ha).post fun r m hm => ?_
    obtain ⟨hr, hm⟩ := fact_sep.mp hm
    exact afterCall_keep hr rfl (Moves.refl (c := .get key) (fun h => h) g) rfl ha m hm
  | inc key offset =>
    refine (update_onSlot CacheValueReal.add offset hv ha).post fun r m hm => ?_
    obtain ⟨hr, hm⟩ := fact_sep.mp hm
    exact afterCall_keep hr rfl (Moves.refl (c := .inc key offset) (fun h => h) g) rfl ha m
      hm
  | dec key offset =>
    refine (update_onSlot CacheValueReal.sub offset hv ha).post fun r m hm => ?_
    obtain ⟨hr, hm⟩ := fact_sep.mp hm
    exact afterCall_keep hr rfl (Moves.refl (c := .dec key offset) (fun h => h) g) rfl ha m
      hm
  | del key =>
    refine (del_onSlot (fun h => hg ⟨h, trivial⟩) ha).post fun r m hm => ?_
    obtain ⟨hr, hm⟩ := fact_sep.mp hm
    refine ⟨.null, fact_sep.mpr ⟨⟨hr, ⟨?_, fun h => absurd rfl (h key)⟩⟩, ?_⟩⟩
    · exact iff_of_false (fun h => h) fun h => h.elim (fun h => hg ⟨h, trivial⟩) fun h => h
    · show tableAnd t array _ size _ (sep emp _) m
      rw [emp_sep]
      exact hm

/-- Freeing a pointer that dangles. -/
theorem call_faults (c : TableCall R) (hg : g.Dangles ∧ Frees c)
    (ha : slots[(fnv1a c.key).toNat % size]? = some g.addr) :
    Faults (tableAnd t array count size slots (sep (slotRep g v) S)) (call found t c) := by
  obtain ⟨hg, hc⟩ := hg
  cases g with
  | null => exact hg.elim
  | value p => exact hg.elim
  | dangling p q =>
    rw [tableAnd_third]
    cases v with
    | none => exact Faults.fact False.elim
    | some x =>
      rw [slotRep, sep_assoc]
      refine Faults.fact fun _ => ?_
      rw [sep_assoc, ← tableAnd_third, ← tableAnd_third]
      cases c with
      | get key => exact hc.elim
      | inc key offset => exact hc.elim
      | dec key offset => exact hc.elim
      | del key => exact hashTableDel_dangling ha
      | set key type d n =>
        refine Faults.load_bind rfl rfl (Faults.after (makeValue_some ha) fun p' => ?_)
        refine Faults.fact fun hp => ?_
        rw [hp, tableAnd_third, tableAnd_third, ← sep_assoc]
        exact Faults.frame_bind (writeValue_dangling rfl key type d n) rfl

end OnSlot

/-! ## A call on the table -/

section OnTable

variable {t : ℕ} {gs : List SlotPtr} {T : HashTable R} {found : Found R}

omit [CacheValueReal R] in
theorem released_garbage (c : TableCall R) (g : SlotPtr) :
    ∀ m : Store (Block R), released c g m → garbage m := by
  cases c with
  | del key =>
    cases g with
    | value p => exact freed_sep_garbage p
    | null => exact fun _ h => h
    | dangling p q => exact fun _ h => h
  | _ => exact fun _ h => h

/-- The values are of the kind their types say. -/
def Kinds (T : HashTable R) : Prop := ∀ i, ∀ x ∈ T.slot i, KindOk x

theorem Kinds.exec (h : Kinds T) (c : TableCall R) : Kinds (c.exec T).2 := by
  intro i
  by_cases hi : i = T.index c.key
  · subst hi
    rw [TableCall.slot_exec_self]
    exact execAt_kindOk c (h _)
  · rw [TableCall.exec_frame c T hi]
    exact h i

theorem call_spec (c : TableCall R) (hT : Kinds T)
    (hg : ¬ ((ptrAt gs (T.index c.key)).Dangles ∧ Frees c)) :
    Triple (tableRep t gs T) (call found t c) fun r => ex fun g' =>
      sep (fact (r = (c.exec T).1 ∧
          Moves c (T.slot (T.index c.key)) (ptrAt gs (T.index c.key)) g'))
        (sep (released c (ptrAt gs (T.index c.key)))
          (tableRep t (gs.set (T.index c.key) g') (c.exec T).2)) := by
  have hi := T.index_lt c.key
  refine triple_open_slot hi fun array hlen => ?_
  have hlt : T.index c.key < gs.length := by rw [hlen]; exact hi
  refine (call_onSlot c (hT _) hg (getElem?_addr hlt)).post fun r m hm => ?_
  obtain ⟨g', hm⟩ := hm
  obtain ⟨⟨hr, hmoves⟩, hm⟩ := fact_sep.mp hm
  refine ⟨g', fact_sep.mpr ⟨⟨?_, hmoves⟩, ?_⟩⟩
  · rw [TableCall.exec_eq]
    exact hr
  · rw [sep_left_comm, tableAnd_third] at hm
    refine sep_mono (fun _ h => h) (fun m hm => ?_) m hm
    rw [TableCall.exec_eq]
    exact tableRep_close hi hlen g' _ _ array m hm

theorem call_spec_faults (c : TableCall R)
    (hg : (ptrAt gs (T.index c.key)).Dangles ∧ Frees c) :
    Faults (tableRep t gs T) (call found t c) := by
  have hi := T.index_lt c.key
  refine faults_open_slot hi fun array hlen => ?_
  have hlt : T.index c.key < gs.length := by rw [hlen]; exact hi
  exact call_faults c hg (getElem?_addr hlt)

end OnTable

/-! ## `hash_table_create` and `hash_table_destroy` -/

section Ends

variable {t array count size : ℕ} {slots : List (Option ℕ)} {S : Assertion (Block R)}
  {found : Found R} {g : SlotPtr} {v : Option (CacheValue R)} {gs : List SlotPtr} {T : HashTable R}

omit [CacheValueReal R] in
theorem hashTableCreate_spec (hsize : 0 < size) :
    Triple emp (hashTableCreate found size) fun t =>
      tableRep t (List.replicate size .null) (Memuncached.hashTableCreate R size hsize) := by
  refine Triple.malloc_bind fun t => Triple.malloc_bind fun array => ?_
  refine Triple.update_bind (sep_left_comm _ _ _) rfl rfl ?_
  refine Triple.update_bind rfl rfl rfl ?_
  refine Triple.update_bind rfl rfl rfl ?_
  refine Triple.pure fun m hm => ⟨array, fact_sep.mpr ⟨List.length_replicate, ?_⟩⟩
  have hslots : List.zipWith slotRep (List.replicate size SlotPtr.null)
      (Memuncached.hashTableCreate R size hsize).table = List.replicate size emp := by
    rw [Memuncached.hashTableCreate, List.zipWith_replicate, min_self]
    rfl
  rw [hslots, all_replicate_emp, List.map_replicate]
  exact hm

omit [CacheValueReal R] in
theorem freeSlot_spec {i : ℕ} (hg : ¬ g.Dangles) (ha : slots[i]? = some g.addr) :
    Triple (tableAnd t array count size slots (sep (slotRep g v) S)) (freeSlot t i) fun _ =>
      tableAnd t array count size slots (sep garbage S) := by
  refine triple_slot ?_ ?_ ?_
  · rintro rfl rfl
    refine Triple.load_bind rfl rfl (Triple.load_bind (sep_left_comm _ _ _) ha ?_)
    refine Triple.pure fun m hm => ?_
    rw [tableAnd_third]
    exact garbage_intro m hm
  · rintro p x q rfl rfl -
    refine Triple.load_bind rfl rfl (Triple.load_bind (sep_left_comm _ _ _) ha ?_)
    refine Triple.load_bind (sep_third _ _ _ _) rfl ?_
    refine Triple.frame_bind (freePointer_spec x.value q) (sep_fourth _ _ _ _ _) fun _ => ?_
    rw [← sep_fourth]
    refine (Triple.free_last (sep_third _ _ _ _)).post fun _ m hm => ?_
    replace hm : sep (freed p) (tableAnd t array count size slots (sep (freedRep q) S)) m := hm
    rw [tableAnd_third, ← sep_assoc] at hm
    rw [tableAnd_third]
    refine sep_mono (fun m hm => ?_) (fun _ h => h) m hm
    exact garbage_sep_garbage m (sep_mono (freed_garbage p) (freedRep_garbage q) m hm)
  · rintro p q x rfl
    exact absurd trivial hg

omit [CacheValueReal R] in
theorem freeSlot_faults {i : ℕ} (hg : g.Dangles) (ha : slots[i]? = some g.addr) :
    Faults (tableAnd t array count size slots (sep (slotRep g v) S)) (freeSlot t i) := by
  cases g with
  | null => exact hg.elim
  | value p => exact hg.elim
  | dangling p q =>
    rw [tableAnd_third]
    cases v with
    | none => exact Faults.fact False.elim
    | some x =>
      rw [slotRep, sep_assoc]
      refine Faults.fact fun _ => ?_
      rw [sep_assoc, ← tableAnd_third, ← tableAnd_third]
      refine Faults.load_bind rfl rfl (Faults.load_bind (sep_left_comm _ _ _) ha ?_)
      refine Faults.load_bind (sep_third _ _ _ _) rfl ?_
      exact Faults.frame_bind (freePointer_dangling q) (sep_fourth _ _ _ _ _)

omit [CacheValueReal R] in
/-- The first of the pointers that are left. -/
theorem getElem?_of_drop {i : ℕ} {a : Option ℕ} {as : List (Option ℕ)}
    (h : slots.drop i = a :: as) : slots[i]? = some a ∧ slots.drop (i + 1) = as := by
  constructor
  · have hhead := congrArg List.head? h
    rwa [List.head?_drop] at hhead
  · have htail := congrArg List.tail h
    rwa [List.tail_drop] at htail

omit [CacheValueReal R] in
/-- The loop of `hash_table_destroy` from slot `i` on. -/
theorem freeSlots_spec {gs : List SlotPtr} {vs : List (Option (CacheValue R))} {i : ℕ}
    (hlen : gs.length = vs.length) (hslots : slots.drop i = gs.map SlotPtr.addr)
    (hgs : ∀ g ∈ gs, ¬ g.Dangles) :
    Triple (tableAnd t array count size slots (sep (all (List.zipWith slotRep gs vs)) garbage))
      ((List.range' i gs.length).forM (freeSlot t)) fun _ =>
        tableAnd t array count size slots garbage := by
  induction gs generalizing vs i with
  | nil => exact Triple.pure fun m hm => by rwa [List.zipWith_nil_left, all, emp_sep] at hm
  | cons g gs ih =>
    cases vs with
    | nil => cases hlen
    | cons v vs =>
      obtain ⟨ha, hrest⟩ := getElem?_of_drop hslots
      rw [List.length_cons, List.range'_succ, List.zipWith_cons_cons, all, sep_assoc]
      refine Triple.bind (freeSlot_spec (hgs g List.mem_cons_self) ha) fun _ => ?_
      refine (ih (Nat.succ.inj hlen) hrest fun g' hg' =>
        hgs g' (List.mem_cons_of_mem _ hg')).pre fun m hm => ?_
      rw [sep_left_comm] at hm
      exact tableAnd_mono (sep_mono (fun _ h => h) garbage_sep_garbage) m hm

omit [CacheValueReal R] in
theorem freeSlots_faults {gs : List SlotPtr} {vs : List (Option (CacheValue R))} {i : ℕ}
    (hlen : gs.length = vs.length) (hslots : slots.drop i = gs.map SlotPtr.addr)
    (hgs : ∃ g ∈ gs, g.Dangles) :
    Faults (tableAnd t array count size slots (sep (all (List.zipWith slotRep gs vs)) S))
      ((List.range' i gs.length).forM (freeSlot t)) := by
  induction gs generalizing vs i S with
  | nil =>
    obtain ⟨g, hg, -⟩ := hgs
    cases hg
  | cons g gs ih =>
    cases vs with
    | nil => cases hlen
    | cons v vs =>
      obtain ⟨ha, hrest⟩ := getElem?_of_drop hslots
      rw [List.length_cons, List.range'_succ, List.zipWith_cons_cons, all, sep_assoc]
      by_cases hg : g.Dangles
      · exact Faults.bind (freeSlot_faults hg ha)
      · obtain ⟨g', hg', hdangles⟩ := hgs
        have hmem : g' ∈ gs := by
          rcases List.mem_cons.mp hg' with rfl | hmem
          · exact absurd hdangles hg
          · exact hmem
        refine Faults.after (freeSlot_spec hg ha) fun _ => ?_
        rw [sep_left_comm]
        exact ih (Nat.succ.inj hlen) hrest ⟨g', hmem, hdangles⟩

omit [CacheValueReal R] in
theorem hashTableDestroy_spec (hgs : InOrder gs) :
    Triple (tableRep t gs T) (hashTableDestroy t) fun _ => garbage := by
  refine Triple.ex fun array => Triple.fact fun hlen => Triple.load_bind rfl rfl ?_
  have hlen' : gs.length = T.table.length := by rw [hlen, T.length_table]
  refine Triple.bind (Q := fun _ => tableAnd t array T.count T.size (gs.map SlotPtr.addr) garbage)
    ?_ fun _ => ?_
  · rw [List.range_eq_range', ← hlen]
    refine (freeSlots_spec hlen' List.drop_zero hgs.mem).pre fun m hm => ?_
    rw [sep_comm (all _), tableAnd_third]
    exact garbage_intro m hm
  · refine Triple.free_bind (sep_left_comm _ _ _) (sep_left_comm _ _ _).symm ?_
    refine (Triple.free_last rfl).post fun _ m hm => ?_
    exact freed_sep_garbage t m (sep_mono (fun _ h => h) (freed_sep_garbage array) m hm)

omit [CacheValueReal R] in
theorem hashTableDestroy_faults {i : ℕ} (hi : (ptrAt gs i).Dangles) :
    Faults (tableRep t gs T) (hashTableDestroy t) := by
  refine Faults.ex fun array => Faults.fact fun hlen => Faults.load_bind rfl rfl (Faults.bind ?_)
  have hlen' : gs.length = T.table.length := by rw [hlen, T.length_table]
  rw [List.range_eq_range', ← hlen]
  have hloop := @freeSlots_faults R t array T.count T.size (gs.map SlotPtr.addr) emp gs T.table 0
    hlen' List.drop_zero (dangles_mem hi)
  rw [sep_emp, ← hlen] at hloop
  exact hloop

end Ends

end OwnedCalls

end Memuncached.OnHeap
