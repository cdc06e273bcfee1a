import Memuncached.Server.Reply

/-!
# What the commands answer

The replies of the commands that act on the table, as functions of the value
under their key.

* `getReply_wellFormed`: the reply to a value is a response with the value's
  type and text, unless it does not fit into an `int` (`ReplyFits`).
* `exec_memuncachedGet`, `exec_memuncachedDel` and `memuncachedUpdate_spec`: GET
  and DEL answer with the value that was there, INC and DEC with the number
  they leave there.
* `stringReply_overruns`: the reply to a string is built in a buffer that is one
  byte too small.
-/

namespace Memuncached.Server

/-- Whether a response has code 200. -/
def isOk (reply : List Byte) : Prop := reply.take 3 = ascii "200"

theorem take_responseWrite {code : List Byte} (hcode : 3 ≤ code.length) (data : List Byte) :
    (responseWrite code data).take 3 = code.take 3 := by
  simp only [responseWrite, List.append_assoc]
  exact List.take_append_of_le_length hcode

theorem isOk_replySuccess (data : List Byte) : isOk (replySuccess data) :=
  take_responseWrite (by decide) data

/-- A reply whose first line is not the one of success. -/
theorem not_isOk_responseWrite {code : List Byte} (hcode : 3 ≤ code.length)
    (hne : code.take 3 ≠ ascii "200") (data : List Byte) : ¬ isOk (responseWrite code data) := by
  unfold isOk
  rw [take_responseWrite hcode]
  exact hne

theorem not_isOk_replyBadRequest (message : List Byte) : ¬ isOk (replyBadRequest message) :=
  not_isOk_responseWrite (by decide) (by decide) message

theorem not_isOk_replyServerError (message : List Byte) : ¬ isOk (replyServerError message) :=
  not_isOk_responseWrite (by decide) (by decide) message

theorem isOk_encode {r : Response} (h : r.code = ascii "200") : isOk r.encode := by
  unfold isOk Response.encode
  rw [h]
  simp only [List.append_assoc]
  exact List.take_append_of_le_length (by decide)

section Answer

variable {R : Type} [CacheValueReal R]

/-! ## Values -/

/-- The bytes a reply carries for a value. -/
def valueText (v : CacheValue R) : List Byte :=
  if v.type = cacheValueDecimal then fmtD v.value.asDecimal.toInt
  else if v.type = cacheValueReal then CacheValueReal.fmtLf v.value.asReal
  else v.value.asString

/-- The reply to a string does not overflow `buffer_len`. -/
def ReplyFits (v : CacheValue R) : Prop :=
  v.type = cacheValueString → (stringReplyLen v.type v.length : ℤ) ≤ intMax

/-- The response that carries a value. -/
def valueResponse (v : CacheValue R) : Response where
  code := ascii "200"
  description := ascii "OK"
  type := some v.type.toNat
  body := valueText v

theorem getReply_eq_none {v : CacheValue R} : getReply v = none ↔ ¬ ReplyFits v := by
  have h0 : cacheValueString ≠ cacheValueDecimal := by decide
  have h1 : cacheValueString ≠ cacheValueReal := by decide
  unfold getReply ReplyFits
  by_cases hs : v.type = cacheValueString
  · rw [if_neg (by rw [hs]; exact h0), if_neg (by rw [hs]; exact h1), if_pos hs]
    split_ifs with hfit
    · exact iff_of_false (by simp) (by simp [hfit])
    · exact iff_of_true rfl fun h => hfit (h hs)
  · rw [if_neg hs]
    split_ifs <;> simp [hs]

/-- The reply to a value of the kind its type says. -/
theorem getReply_wellFormed {v : CacheValue R} (hv : v.WellFormed) (hfit : ReplyFits v) :
    getReply v = some (valueResponse v).encode := by
  have h01 : cacheValueReal ≠ cacheValueDecimal := by decide
  have h02 : cacheValueString ≠ cacheValueDecimal := by decide
  have h12 : cacheValueString ≠ cacheValueReal := by decide
  unfold getReply valueResponse valueText
  rcases hv with ⟨ht, -, -⟩ | ⟨ht, -, -⟩ | ⟨ht, bytes, hval, hlen⟩
  · rw [if_pos ht, if_pos ht, numberReply_eq_encode]
  · rw [if_neg (by rw [ht]; exact h01), if_pos ht, if_neg (by rw [ht]; exact h01), if_pos ht,
      numberReply_eq_encode]
  · have hbody : v.value.asString = bytes := by rw [hval]; rfl
    rw [if_neg (by rw [ht]; exact h02), if_neg (by rw [ht]; exact h12), if_pos ht,
      if_pos (hfit ht), if_neg (by rw [ht]; exact h02), if_neg (by rw [ht]; exact h12), hbody,
      ← hlen, stringReply_eq_encode]

theorem isOk_response (v : CacheValue R) : isOk (valueResponse v).encode := isOk_encode rfl

/-! ## GET and DEL -/

/-- What GET answers when it finds `v`. -/
def answer (v : Option (CacheValue R)) : Option (List (List Byte)) :=
  match v with
  | none => some [replyNotFound]
  | some v => (getReply v).map fun reply => [reply]

theorem answer_eq_none {v : Option (CacheValue R)} :
    answer v = none ↔ ∃ x, v = some x ∧ ¬ ReplyFits x := by
  cases v with
  | none => simp [answer]
  | some x => simp [answer, getReply_eq_none]

theorem exec_memuncachedGet (key : List Byte) (t : HashTable R) :
    TableProg.exec (memuncachedGet key) t = (answer (hashTableGet t key), t) := by
  unfold memuncachedGet
  simp only [TableProg.exec_bind, TableProg.exec_get]
  cases hashTableGet t key <;> rfl

theorem exec_memuncachedDel (key : List Byte) (t : HashTable R) :
    TableProg.exec (memuncachedDel key) t =
      (answer (hashTableGet t key),
        if answer (hashTableGet t key) = none then t else (hashTableDel t key).2) := by
  unfold memuncachedDel
  rw [TableProg.exec_bind, exec_memuncachedGet]
  cases answer (hashTableGet t key) <;> rfl

omit [CacheValueReal R] in
/-- Nothing is deleted where there is nothing. -/
theorem hashTableDel_of_none {t : HashTable R} {key : List Byte} (h : hashTableGet t key = none) :
    (hashTableDel t key).2 = t := by
  unfold hashTableDel
  rw [show t.slot (t.index key) = none from h]

omit [CacheValueReal R] in
theorem hashTableGet_del (t : HashTable R) (key : List Byte) :
    hashTableGet (hashTableDel t key).2 key = none := by
  cases h : hashTableGet t key with
  | none => rw [hashTableDel_of_none h, h]
  | some v =>
    unfold hashTableDel
    rw [show t.slot (t.index key) = some v from h]
    exact t.slot_setSlot_self (t.index_lt key) _ _

/-! ## INC and DEC -/

theorem hashTableGet_set (table : HashTable R) (key : List Byte) (type : UInt8)
    (value : CacheData R) (size : ℕ) :
    hashTableGet (hashTableSet table key type value size).2 key =
      some { key := key, type := type, value := value.copyAs type size, length := size } :=
  table.slot_setSlot_self (table.index_lt key) _ _

theorem hashTableUpdate_cases (op : R → R → R) (t : HashTable R) (key : List Byte) (offset : R) :
    hashTableUpdate op t key offset = (none, t) ∨
      ∃ v, v.type ≠ cacheValueString ∧ (hashTableUpdate op t key offset).1 = some v ∧
        hashTableGet (hashTableUpdate op t key offset).2 key = some v := by
  unfold hashTableUpdate
  cases hashTableGet t key with
  | none => exact Or.inl rfl
  | some v =>
    dsimp only
    split_ifs with hs
    · exact Or.inl rfl
    · exact Or.inr ⟨v.update op offset, hs, rfl, t.slot_setSlot_self (t.index_lt key) _ _⟩

/-- INC and DEC answer with the number they leave under the key. -/
theorem memuncachedUpdate_spec {op : R → R → R}
    {update : List Byte → R → TableProg R (Option (CacheValue R))}
    (hupdate : ∀ key offset t, TableProg.exec (update key offset) t =
      hashTableUpdate op t key offset)
    (key : List Byte) (offset initial : Option (List Byte)) (t : HashTable R) :
    ∃ v, v.type ≠ cacheValueString ∧
      hashTableGet (TableProg.exec (memuncachedUpdate update key offset initial) t).2 key =
        some v ∧
      (TableProg.exec (memuncachedUpdate update key offset initial) t).1 = answer (some v) := by
  unfold memuncachedUpdate
  rw [TableProg.exec_bind, hupdate]
  rcases hashTableUpdate_cases op t key (vOffset offset) with hnone | ⟨v, hs, hv, hget⟩
  · rw [hnone]
    dsimp only
    split_ifs
    · simp only [TableProg.exec_bind, TableProg.exec_set, exec_memuncachedGet, hashTableGet_set]
      exact ⟨_, show cacheValueDecimal ≠ cacheValueString by decide, rfl, rfl⟩
    · simp only [TableProg.exec_bind, TableProg.exec_set, exec_memuncachedGet, hashTableGet_set]
      exact ⟨_, show cacheValueReal ≠ cacheValueString by decide, rfl, rfl⟩
  · rw [hv]
    simp only [exec_memuncachedGet, hget]
    exact ⟨v, hs, rfl, rfl⟩

theorem memuncachedDec_spec (key : List Byte) (offset initial : Option (List Byte))
    (t : HashTable R) :
    ∃ v, v.type ≠ cacheValueString ∧
      hashTableGet (TableProg.exec (memuncachedDec key offset initial) t).2 key = some v ∧
      (TableProg.exec (memuncachedDec key offset initial) t).1 = answer (some v) :=
  memuncachedUpdate_spec (fun _ _ _ => rfl) key offset initial t

theorem memuncachedInc_spec (key : List Byte) (offset initial : Option (List Byte))
    (t : HashTable R) :
    ∃ v, v.type ≠ cacheValueString ∧
      hashTableGet (TableProg.exec (memuncachedInc key offset initial) t).2 key = some v ∧
      (TableProg.exec (memuncachedInc key offset initial) t).1 = answer (some v) :=
  memuncachedUpdate_spec (fun _ _ _ => rfl) key offset initial t

/-! ## SET and ADD -/

/-- The value SET stores for a payload buffer with its terminators, if the type
    is one of the three. -/
def setResult (key : List Byte) (vType : UInt8) (vLength : ℤ) (payload : List Byte) :
    Option (CacheValue R) :=
  if vType = cacheValueDecimal then
    some { key := key, type := vType, value := .decimal (atoll payload), length := 0 }
  else if vType = cacheValueReal then
    some { key := key, type := vType, value := .real (CacheValueReal.atof payload), length := 0 }
  else if vType = cacheValueString then
    some { key := key, type := vType, value := .string (payload.take vLength.toNat),
           length := vLength.toNat }
  else none

theorem putTerminators_some {buffer : List Byte} {vLength : ℤ}
    (h : 0 ≤ vLength ∧ vLength + 1 < buffer.length) :
    putTerminators (some buffer) vLength = some (store buffer vLength.toNat [0, 0]) := by
  simp only [putTerminators, Option.bind_eq_bind, Option.bind_some]
  rw [if_pos h]
  rfl

theorem putTerminators_none {payload : Option (List Byte)} {vLength : ℤ}
    (h : ∀ buffer ∈ payload, ¬ (0 ≤ vLength ∧ vLength + 1 < buffer.length)) :
    putTerminators payload vLength = none := by
  cases payload with
  | none => rfl
  | some buffer =>
    simp only [putTerminators, Option.bind_eq_bind, Option.bind_some]
    rw [if_neg (h buffer rfl)]

theorem setValue_none (key type : List Byte) {vLength : ℤ} {payload : Option (List Byte)}
    (h : putTerminators payload vLength = none) (t : HashTable R) :
    (TableProg.exec (setValue key type vLength payload) t).1 = none := by
  unfold setValue
  rw [TableProg.exec_bind, h]
  rfl

/-- A payload of one of the three types is stored. -/
theorem setValue_stores {key type : List Byte} {vLength : ℤ} {payload : Option (List Byte)}
    {buffer : List Byte} (h : putTerminators payload vLength = some buffer) {v : CacheValue R}
    (hv : setResult key (type.headD 0 - 48) vLength buffer = some v) (t : HashTable R) :
    (TableProg.exec (setValue key type vLength payload) t).1 = some [replySuccess []] ∧
      hashTableGet (TableProg.exec (setValue key type vLength payload) t).2 key = some v := by
  unfold setResult at hv
  unfold setValue
  rw [TableProg.exec_bind, h]
  dsimp only
  split_ifs at hv ⊢ with h0 h1 h2
  · refine ⟨rfl, ?_⟩
    simp only [TableProg.exec_bind, TableProg.exec_set, TableProg.exec_pure, hashTableGet_set,
      ← hv, CacheData.copyAs, if_pos h0]
    rfl
  · refine ⟨rfl, ?_⟩
    simp only [TableProg.exec_bind, TableProg.exec_set, TableProg.exec_pure, hashTableGet_set,
      ← hv, CacheData.copyAs, if_neg h0, if_pos h1]
    rfl
  · refine ⟨rfl, ?_⟩
    simp only [TableProg.exec_bind, TableProg.exec_set, TableProg.exec_pure, hashTableGet_set,
      ← hv, CacheData.copyAs, if_neg h0, if_neg h1, if_pos h2]
    rfl

/-- Any other type is refused, with the old value gone. -/
theorem setValue_rejects {key type : List Byte} {vLength : ℤ} {payload : Option (List Byte)}
    {buffer : List Byte} (h : putTerminators payload vLength = some buffer)
    (hv : setResult (R := R) key (type.headD 0 - 48) vLength buffer = none) (t : HashTable R) :
    TableProg.exec (setValue key type vLength payload) t =
      (some [replyBadRequest (ascii "The argument LENGTH must be 0, 1, or 2.")],
        (hashTableDel t key).2) := by
  unfold setResult at hv
  unfold setValue
  rw [TableProg.exec_bind, h]
  dsimp only
  split_ifs at hv ⊢
  rfl

theorem exec_setTable (key type : List Byte) (vLength : ℤ) (payload : Option (List Byte))
    (overwrite : Bool) (t : HashTable R) :
    TableProg.exec (setTable key type vLength payload overwrite) t =
      if overwrite = true ∨ hashTableGet t key = none then
        TableProg.exec (setValue key type vLength payload) t
      else (some [replyKeyExists], t) := by
  unfold setTable
  cases overwrite with
  | true => rfl
  | false =>
    simp only [Bool.false_eq_true, if_false, TableProg.exec_bind, TableProg.exec_get, false_or]
    cases hashTableGet t key <;> rfl

/-! ## The buffer of a string reply -/

/-- GET assembles its reply to `v` inside the `buffer_len` bytes it allocates,
    and sends the header, the bytes of the string and the trailer. -/
def StringReplyBuilt (v : CacheValue R) : Prop :=
  StoresWithin (stringReplyLen v.type v.length)
      (stringReplyStores v.type v.length v.value.asString) ∧
    getReply v = some (stringReplyHeader v.type v.length ++ v.value.asString ++ 0 :: crlf)

omit [CacheValueReal R] in
/-- The stores fill the buffer and the byte behind it: `buffer_len` counts the
    NUL that `%c` prints, not the one that `sprintf` appends. -/
theorem written_stringReplyStores (type : UInt8) {payloadLen : ℕ} {value : List Byte}
    (hlen : value.length = payloadLen) (i : ℕ) :
    Written (stringReplyStores type payloadLen value) i ↔ i ≤ stringReplyLen type payloadLen := by
  have htrailer : (0 :: crlf ++ [(0 : Byte)]).length = 4 := rfl
  have hbytes : (value.take payloadLen).length = payloadLen := by
    rw [List.length_take, hlen, Nat.min_self]
  unfold stringReplyStores stringReplyLen
  simp only [written_cons, written_nil, or_false, List.length_append, List.length_singleton, hbytes]
  simp only [List.length_append, List.length_singleton] at htrailer
  rw [htrailer]
  omega

/-- The reply to a string that is sent is the right one, but building it writes
    one byte, and only one, behind the buffer. -/
theorem stringReply_overruns {v : CacheValue R} (hv : v.WellFormed)
    (hs : v.type = cacheValueString) (hfit : ReplyFits v) :
    ¬ StringReplyBuilt v ∧
      (∀ i, Written (stringReplyStores v.type v.length v.value.asString) i ↔
        i ≤ stringReplyLen v.type v.length) ∧
      getReply v = some (stringReplyHeader v.type v.length ++ v.value.asString ++ 0 :: crlf) := by
  obtain ⟨bytes, hval, hlen⟩ : ∃ bytes, v.value = .string bytes ∧ bytes.length = v.length := by
    rcases hv with ⟨ht, -⟩ | ⟨ht, -⟩ | ⟨-, h⟩
    · exact absurd (hs.symm.trans ht) (by decide)
    · exact absurd (hs.symm.trans ht) (by decide)
    · exact h
  have hbytes : v.value.asString = bytes := by rw [hval]; rfl
  have hwritten := @written_stringReplyStores v.type v.length v.value.asString (hbytes ▸ hlen)
  refine ⟨?_, hwritten, ?_⟩
  · rintro ⟨hwithin, -⟩
    exact absurd (hwithin _ ((hwritten _).mpr le_rfl)) (lt_irrefl _)
  · unfold getReply
    rw [if_neg (by rw [hs]; decide), if_neg (by rw [hs]; decide), if_pos hs, if_pos (hfit hs),
      hbytes, ← hlen, stringReply_eq]

end Answer

/-- `SET k 2 3` with the payload `abc`, as `GET` finds it. -/
def storedAbc : CacheValue ℚ where
  key := ascii "k"
  type := cacheValueString
  value := .string (ascii "abc")
  length := 3

theorem storedAbc_wellFormed : storedAbc.WellFormed := Or.inr (Or.inr ⟨rfl, ascii "abc", rfl, rfl⟩)

theorem storedAbc_fits : ReplyFits storedAbc := fun _ => by decide

theorem stringReply_overruns_abc : ¬ StringReplyBuilt storedAbc :=
  (stringReply_overruns storedAbc_wellFormed rfl storedAbc_fits).1

/-- The trailer's terminator of the reply to `abc` is at index `buffer_len`. -/
theorem not_stringReplyBuilt_abc :
    ¬ ∀ v : CacheValue ℚ, v.WellFormed → v.type = cacheValueString → ReplyFits v →
      StringReplyBuilt v := by
  intro h
  obtain ⟨hwithin, -⟩ := h storedAbc storedAbc_wellFormed rfl storedAbc_fits
  have hlen : storedAbc.value.asString.length = storedAbc.length := rfl
  have hlt := hwithin _ ((written_stringReplyStores storedAbc.type hlen _).mpr le_rfl)
  exact lt_irrefl _ hlt

end Memuncached.Server
