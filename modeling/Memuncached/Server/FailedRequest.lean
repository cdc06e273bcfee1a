import Memuncached.Server.StoreRequest

/-!
# Failed requests

Which requests that get a reply other than 200 leave the table as it was.

* `memuncachedSetEnd_keeps`: all refusals of ADD and SET come before the old
  value is deleted, except the one of a TYPE other than 0, 1 and 2.
* `handleCommand_failed_unchanged_iff`: a command changes the table and fails
  exactly when it is such a SET of a key with a value and its payload arrives.
-/

namespace Memuncached.Server

open Segments

section FailedRequest

variable {R : Type} [CacheValueReal R]

/-- If the request gets a reply other than 200, the table behind it is the one
    before. -/
def FailedUnchanged (table : HashTable R) (s : CommandState R × Socket) : Prop :=
  ∀ n events table' running, (runCommand table n s).1 = .done events table' running →
    (∃ reply ∈ repliesOf events, ¬ isOk reply) → table' = table

/-- A TYPE that `memuncached_set` refuses. -/
def RefusedType (type : List Byte) : Prop := type.headD 0 ∉ ascii "012"

instance (type : List Byte) : Decidable (RefusedType type) :=
  inferInstanceAs (Decidable (_ ∉ _))

/-- The command is a SET with a refused TYPE of a key with a value. Its LENGTH
    is one that `memuncached_set` can read, and the payload arrives: `k` bytes
    with the command and the others in the stream `s`. -/
def LosesValue (table : HashTable R) (command : List Byte) (k : ℕ) (s : List Byte) : Prop :=
  ∃ cmd key type length rest, Args command [cmd, key, type, length] rest ∧
    commandWord cmd = some .set ∧ isPositiveDecimal type = true ∧ isPositiveDecimal length = true ∧
    RefusedType type ∧ hashTableGet table key ≠ none ∧
    0 ≤ atoi length ∧ atoi length + 2 ≤ intMax ∧ (k : ℤ) ≤ atoi length + 2 ∧
    atoi length + 2 ≤ k + s.length

theorem setResult_eq_none {key type : List Byte} {vLength : ℤ} {payload : List Byte} :
    setResult (R := R) key (type.headD 0 - 48) vLength payload = none ↔ RefusedType type := by
  unfold setResult RefusedType
  generalize type.headD 0 = d
  have hsub : ∀ d' : UInt8, d - 48 = d' ↔ d = d' + 48 := by
    intro d'
    constructor
    · intro h
      rw [← h, UInt8.sub_add_cancel]
    · intro h
      rw [h, UInt8.add_sub_cancel]
  have hcases : d ∉ ascii "012" ↔ ¬ (d - 48 = cacheValueDecimal ∨ d - 48 = cacheValueReal ∨
      d - 48 = cacheValueString) := by
    rw [hsub, hsub, hsub]
    show d ∉ [48, 49, 50] ↔ _
    simp [cacheValueDecimal, cacheValueReal, cacheValueString]
  rw [hcases]
  split_ifs with h0 h1 h2
  · simp [h0]
  · simp [h1]
  · simp [h2]
  · simp [h0, h1, h2]

/-! ## Commands without payload -/

/-- A command that has failed has left the table as it was. -/
def CommandState.Keeps (table : HashTable R) : CommandState R → Prop
  | .done events table' _ => (∃ reply ∈ repliesOf events, ¬ isOk reply) → table' = table
  | .recv _ => True
  | .fault => True

theorem isOk_getReply {v : CacheValue R} (hv : v.type = cacheValueString → v.WellFormed)
    {reply : List Byte} (h : getReply v = some reply) : isOk reply := by
  by_cases hs : v.type = cacheValueString
  · have hfit : ReplyFits v := by
      by_contra hno
      rw [getReply_eq_none.mpr hno] at h
      cases h
    rw [getReply_wellFormed (hv hs) hfit] at h
    injection h with h
    rw [← h]
    exact isOk_response v
  · unfold getReply at h
    rw [if_neg hs] at h
    split_ifs at h
    · injection h with h
      rw [← h, numberReply_eq_encode]
      exact isOk_encode rfl
    · injection h with h
      rw [← h, numberReply_eq_encode]
      exact isOk_encode rfl
    · injection h with h
      rw [← h]
      exact isOk_replySuccess []

theorem ofTable_keeps {p : TableProg R (Option (List (List Byte)))} {table : HashTable R}
    (h : ∀ writes, (TableProg.exec p table).1 = some writes →
      (∃ reply ∈ writes, ¬ isOk reply) → (TableProg.exec p table).2 = table) :
    (CommandState.ofTable p table).Keeps table := by
  rw [ofTable_eq]
  cases hwrites : (TableProg.exec p table).1 with
  | none => trivial
  | some writes =>
    intro hfail
    rw [repliesOf_map_reply] at hfail
    exact h writes hwrites hfail

/-- What answers with a value succeeds. -/
theorem answer_some_isOk {v : CacheValue R} (hv : v.type = cacheValueString → v.WellFormed)
    {writes : List (List Byte)} (h : answer (some v) = some writes) :
    ¬ ∃ reply ∈ writes, ¬ isOk reply := by
  rintro ⟨reply, hmem, hno⟩
  obtain ⟨x, hx, rfl⟩ := Option.map_eq_some_iff.mp h
  rw [List.mem_singleton.mp hmem] at hno
  exact hno (isOk_getReply hv hx)

theorem memuncachedDel_keeps {table : HashTable R} (htable : Reachable table) (key : List Byte) :
    (CommandState.ofTable (memuncachedDel key) table).Keeps table := by
  apply ofTable_keeps
  intro writes hwrites hfail
  rw [exec_memuncachedDel] at hwrites ⊢
  dsimp only at hwrites ⊢
  split_ifs
  · rfl
  · cases hget : hashTableGet table key with
    | none => exact hashTableDel_of_none hget
    | some v =>
      rw [hget] at hwrites
      exact absurd hfail (answer_some_isOk (fun _ => htable.wellFormed _ v hget) hwrites)

theorem runCall_keeps (env : Env) {table : HashTable R} (htable : Reachable table)
    (clientCount : ℕ) (mem : List Byte) (k : ℕ) {call : Call}
    (hcall : ∀ key type length itr overwrite, call ≠ .set key type length itr overwrite) :
    (runCall env table clientCount mem k call).Keeps table := by
  -- INC and DEC always answer with a number
  have hcounter : ∀ p : TableProg R (Option (List (List Byte))),
      (∃ v : CacheValue R, v.type ≠ cacheValueString ∧
        (TableProg.exec p table).1 = answer (some v)) →
      (CommandState.ofTable p table).Keeps table := by
    rintro p ⟨v, hs, hv⟩
    apply ofTable_keeps
    intro writes hwrites hfail
    rw [hv] at hwrites
    exact absurd hfail (answer_some_isOk (fun hs' => absurd hs' hs) hwrites)
  cases call with
  | set key type length itr overwrite => exact absurd rfl (hcall key type length itr overwrite)
  | nothing => exact fun _ => rfl
  | badRequest message => exact fun _ => rfl
  | bye => exact fun _ => rfl
  | stt => exact fun _ => rfl
  | ver => exact fun _ => rfl
  | dec key offset initial =>
    obtain ⟨v, hs, -, hv⟩ := memuncachedDec_spec key offset initial table
    exact hcounter _ ⟨v, hs, hv⟩
  | inc key offset initial =>
    obtain ⟨v, hs, -, hv⟩ := memuncachedInc_spec key offset initial table
    exact hcounter _ ⟨v, hs, hv⟩
  | del key => exact memuncachedDel_keeps htable key
  | get key =>
    apply ofTable_keeps
    intro writes hwrites hfail
    exact congrArg Prod.snd (exec_memuncachedGet key table)

/-! ## ADD and SET -/

/-- `memuncached_set` of the key, type, length and flag, with nothing replied
    unless there is no buffer. -/
structure SetOf (key type : List Byte) (vLength : ℤ) (overwrite : Bool) (p : PayloadRead) :
    Prop where
  key_eq : p.key = key
  type_eq : p.type = type
  vLength_eq : p.vLength = vLength
  overwrite_eq : p.overwrite = overwrite
  writes : p.writes = [] ∨ p.payload = none

/-- The refusals of `memuncached_set` leave the table alone, unless the type is
    refused and the key has a value. -/
theorem memuncachedSetEnd_keeps {table : HashTable R} {p : PayloadRead}
    (hwrites : p.writes = [] ∨ p.payload = none)
    (hno : ¬ (p.overwrite = true ∧ RefusedType p.type ∧ hashTableGet table p.key ≠ none ∧
      0 ≤ p.vLength)) : (memuncachedSetEnd table p).Keeps table := by
  rw [memuncachedSetEnd_eq, exec_setTable]
  by_cases hset : p.overwrite = true ∨ hashTableGet table p.key = none
  · rw [if_pos hset]
    cases hput : putTerminators p.payload p.vLength with
    | none =>
      rw [setValue_none p.key p.type hput]
      trivial
    | some buffer =>
      have hsome : p.payload ≠ none := by
        intro hp
        rw [hp] at hput
        cases hput
      have hnil := hwrites.resolve_right hsome
      have hv : 0 ≤ p.vLength := by
        by_contra hneg
        rw [putTerminators_none fun _ _ h => hneg h.1] at hput
        cases hput
      cases hresult : setResult (R := R) p.key (p.type.headD 0 - 48) p.vLength buffer with
      | none =>
        have hrefused := setResult_eq_none.mp hresult
        rw [setValue_rejects hput hresult]
        intro _
        by_contra hne
        have hget : hashTableGet table p.key ≠ none := fun hget => hne (hashTableDel_of_none hget)
        exact hno ⟨hset.resolve_right hget, hrefused, hget, hv⟩
      | some v =>
        rw [(setValue_stores hput hresult table).1]
        rintro ⟨reply, hmem, hfail⟩
        rw [repliesOf_append, repliesOf_events, repliesOf_map_reply, hnil, List.nil_append,
          List.nil_append, List.mem_singleton] at hmem
        rw [hmem] at hfail
        exact absurd (isOk_replySuccess []) hfail
  · rw [if_neg hset]
    exact fun _ => rfl

section Run

variable {table : HashTable R} {key type : List Byte} {vLength : ℤ} {overwrite : Bool}

/-- What holds of every state of a `memuncached_set` that loses no value. -/
def CommandState.KeepsSet (table : HashTable R) (key type : List Byte) (vLength : ℤ)
    (overwrite : Bool) : CommandState R → Prop
  | .done events table' running => (CommandState.done events table' running).Keeps table
  | .recv p => SetOf key type vLength overwrite p
  | .fault => True

theorem payloadLoop_keepsSet
    (hno : ¬ (overwrite = true ∧ RefusedType type ∧ hashTableGet table key ≠ none ∧ 0 ≤ vLength))
    {p : PayloadRead} (hp : SetOf key type vLength overwrite p) :
    (payloadLoop table p).KeepsSet table key type vLength overwrite := by
  have hend : (memuncachedSetEnd table p).Keeps table := by
    apply memuncachedSetEnd_keeps hp.writes
    rw [hp.key_eq, hp.type_eq, hp.vLength_eq, hp.overwrite_eq]
    exact hno
  unfold payloadLoop
  split_ifs
  · exact hp
  · cases hs : memuncachedSetEnd table p with
    | done events table' running =>
      rw [hs] at hend
      exact hend
    | recv p' =>
      rw [memuncachedSetEnd_eq] at hs
      split at hs <;> cases hs
    | fault => trivial

theorem payloadRecv_keepsSet
    (hno : ¬ (overwrite = true ∧ RefusedType type ∧ hashTableGet table key ≠ none ∧ 0 ≤ vLength))
    (p : PayloadRead) (result : RecvResult) (hp : SetOf key type vLength overwrite p) :
    (payloadRecv table p result).KeepsSet table key type vLength overwrite := by
  cases result with
  | data bytes =>
    apply payloadLoop_keepsSet hno
    refine ⟨hp.key_eq, hp.type_eq, hp.vLength_eq, hp.overwrite_eq, ?_⟩
    rcases hp.writes with hw | hnone
    · exact Or.inl hw
    · right
      show p.payload.map _ = none
      rw [hnone]
      rfl
  | eof => exact payloadLoop_keepsSet hno hp
  | error => exact fun _ => rfl
  | block => exact hp

/-- A `memuncached_set` that loses no value keeps the table when it fails. -/
theorem memuncachedSet_keeps {env : Env} {length found : List Byte}
    (hno : ¬ (overwrite = true ∧ RefusedType type ∧ hashTableGet table key ≠ none ∧
      0 ≤ atoi length)) (socket : Socket) :
    FailedUnchanged table (memuncachedSet env table key type length found overwrite, socket) := by
  have hstart : (memuncachedSet env table key type length found overwrite).KeepsSet table key type
      (atoi length) overwrite := by
    unfold memuncachedSet
    dsimp only
    split_ifs with hv hcalloc
    · trivial
    · rw [Option.isNone_iff_eq_none.mp hcalloc]
      cases hcopy : copyChunk none found with
      | none => trivial
      | some payload =>
        apply payloadLoop_keepsSet hno
        refine ⟨rfl, rfl, rfl, rfl, Or.inr ?_⟩
        unfold copyChunk at hcopy
        split_ifs at hcopy
        injection hcopy with hcopy
        exact hcopy.symm
    · cases copyChunk (calloc env (atoi length + 2)) found with
      | none => trivial
      | some payload => exact payloadLoop_keepsSet hno ⟨rfl, rfl, rfl, rfl, Or.inl rfl⟩
  intro n events table' running hdone
  have hrun := runCommand_invariant (P := fun state =>
    state.KeepsSet table key type (atoi length) overwrite) (payloadRecv_keepsSet hno)
    (s := (memuncachedSet env table key type length found overwrite, socket)) hstart n
  rw [hdone] at hrun
  exact hrun

end Run

/-! ## All commands -/

/-- A command that has finished at once. -/
theorem failedUnchanged_of_keeps {table : HashTable R} {state : CommandState R} (socket : Socket)
    (hstop : ∀ p, state ≠ .recv p) (h : state.Keeps table) :
    FailedUnchanged table (state, socket) := by
  intro n events table' running hdone
  rw [runCommand_stopped table (s := (state, socket)) hstop] at hdone
  rw [show state = .done events table' running from hdone] at h
  exact h

/-- The payload is too long for the stream: the command does not get to the
    table. -/
theorem memuncachedSet_waits {env : Env} (henv : env.AllocationsSucceed) (table : HashTable R)
    (key type : List Byte) {length found : List Byte} (overwrite : Bool) (h0 : 0 ≤ atoi length)
    (hmax : atoi length + 2 ≤ intMax) (hk : (found.length : ℤ) ≤ atoi length + 2)
    {segs : List (List Byte)} {s : List Byte} (hcut : Cut segs s) (ending : StreamEnd)
    (hs : (found.length : ℤ) + s.length < atoi length + 2) :
    FailedUnchanged table (memuncachedSet env table key type length found overwrite,
      { segments := segs, ending := ending }) := by
  obtain ⟨v, hv⟩ := Int.eq_ofNat_of_zero_le h0
  rw [hv] at hmax hk hs
  rw [memuncachedSet_eq henv table key type hv hmax (by omega) overwrite]
  set p : PayloadRead :=
    { key := key, type := type, vLength := v,
      payload := some (found ++ List.replicate (v + 2 - found.length) 0),
      chunkSize := found.length, vLen := (v : ℤ) + 2 - found.length, overwrite := overwrite,
      writes := [] } with hp
  have hshort : (s.length : ℤ) < p.vLen := by
    show (s.length : ℤ) < (v : ℤ) + 2 - found.length
    omega
  rw [payloadLoop_of_pos table (by omega)]
  intro n events table' running hdone
  rcases runCommand_short table ending p hcut hshort n with ⟨p', hwait⟩ | herror
  · rw [hwait] at hdone
    cases hdone
  · rw [herror] at hdone
    cases hdone
    exact fun _ => rfl

/-- The payload arrives, the old value is deleted, and the request is refused. -/
theorem memuncachedSet_loses {env : Env} (henv : env.AllocationsSucceed) {table : HashTable R}
    {key type length found : List Byte} (htype : RefusedType type)
    (hget : hashTableGet table key ≠ none) (h0 : 0 ≤ atoi length)
    (hmax : atoi length + 2 ≤ intMax) (hk : (found.length : ℤ) ≤ atoi length + 2)
    {segs : List (List Byte)} {s : List Byte} (hcut : Cut segs s) (ending : StreamEnd)
    (hs : atoi length + 2 ≤ found.length + s.length) :
    ¬ FailedUnchanged table (memuncachedSet env table key type length found true,
      { segments := segs, ending := ending }) := by
  obtain ⟨v, hv⟩ := Int.eq_ofNat_of_zero_le h0
  rw [hv] at hmax hk hs
  obtain ⟨n, buffer, hfull, hrun⟩ :=
    memuncachedSet_arrives henv table key type hv hmax (show found.length ≤ v + 2 by omega) true
      hcut ending (by omega)
  have hput : putTerminators (some buffer) v = some (store buffer (v : ℤ).toNat [0, 0]) :=
    putTerminators_some ⟨by omega, by omega⟩
  have hresult : setResult (R := R) key (type.headD 0 - 48) v
      (store buffer (v : ℤ).toNat [0, 0]) = none := setResult_eq_none.mpr htype
  set p : PayloadRead :=
    { key := key, type := type, vLength := v, payload := some buffer, chunkSize := found.length,
      vLen := 0, overwrite := true, writes := [] } with hp
  have hend : memuncachedSetEnd table p =
      .done (p.events ++ [.reply (replyBadRequest (ascii "The argument LENGTH must be 0, 1, or 2."))])
        (hashTableDel table key).2 true := by
    rw [memuncachedSetEnd_eq, exec_setTable]
    simp only [hp, true_or, if_true, setValue_rejects hput hresult]
    rfl
  intro hkeep
  have hsame := hkeep n _ _ _ ((congrArg Prod.fst hrun).trans hend)
    ⟨_, by rw [repliesOf_append, repliesOf_events]; exact List.mem_singleton.mpr rfl,
      not_isOk_replyBadRequest _⟩
  rw [← hsame, hashTableGet_del] at hget
  exact hget rfl

theorem calloc_eq_some {env : Env} {size : ℤ} {buffer : List Byte}
    (h : calloc env size = some buffer) :
    (buffer.length : ℤ) = size ∧ env.granted buffer.length = true := by
  unfold calloc at h
  split_ifs at h with hcond
  injection h with h
  rw [← h, List.length_replicate]
  exact ⟨Int.toNat_of_nonneg hcond.1, hcond.2⟩

/-- A length beyond `INT_MAX - 2`, or a chunk longer than the buffer,
    if there is one. -/
theorem memuncachedSet_undefined {env : Env} {table : HashTable R}
    {key type length chunk : List Byte} {overwrite : Bool}
    (h : intMax < atoi length + 2 ∨
      ∀ buffer ∈ calloc env (atoi length + 2), buffer.length < chunk.length)
    (hk : intMax < atoi length + 2 ∨ 0 < chunk.length) :
    memuncachedSet env table key type length chunk overwrite = .fault := by
  unfold memuncachedSet
  dsimp only
  by_cases hmax : atoi length + 2 > intMax
  · rw [if_pos hmax]
  · have hcopy : copyChunk (calloc env (atoi length + 2)) chunk = none := by
      have hlong := h.resolve_left hmax
      unfold copyChunk
      rw [if_neg (Nat.ne_of_gt (hk.resolve_left hmax))]
      cases hcalloc : calloc env (atoi length + 2) with
      | none => rfl
      | some buffer =>
        dsimp only
        rw [if_neg (not_le.mpr (hlong buffer hcalloc))]
    rw [if_neg hmax, hcopy]

theorem memuncachedSet_fault (env : Env) (table : HashTable R) (key type : List Byte)
    {length found : List Byte} (overwrite : Bool) (h0 : 0 ≤ atoi length)
    (h : intMax < atoi length + 2 ∨ atoi length + 2 < found.length) :
    memuncachedSet env table key type length found overwrite = .fault := by
  apply memuncachedSet_undefined
  · refine h.imp_right fun hlong buffer hbuffer => ?_
    have hlen := (calloc_eq_some hbuffer).1
    omega
  · exact h.imp_right fun hlong => by omega

theorem runCall_ne_recv (env : Env) (table : HashTable R) (clientCount : ℕ) (mem : List Byte)
    (k : ℕ) {call : Call}
    (hcall : ∀ key type length itr overwrite, call ≠ .set key type length itr overwrite)
    (p : PayloadRead) : runCall env table clientCount mem k call ≠ .recv p := by
  have hprog : ∀ prog : TableProg R (Option (List (List Byte))),
      CommandState.ofTable prog table ≠ .recv p := by
    intro prog
    rw [ofTable_eq]
    cases (TableProg.exec prog table).1 <;> simp
  cases call with
  | set key type length itr overwrite => exact absurd rfl (hcall key type length itr overwrite)
  | nothing => simp [runCall]
  | badRequest message => simp [runCall]
  | bye => simp [runCall]
  | stt => simp [runCall]
  | ver => simp [runCall]
  | dec key offset initial => exact hprog (memuncachedDec key offset initial)
  | inc key offset initial => exact hprog (memuncachedInc key offset initial)
  | del key => exact hprog (memuncachedDel key)
  | get key => exact hprog (memuncachedGet key)

end FailedRequest

/-- A table with the number 1 under `a`. -/
def tableWithA : HashTable ℚ :=
  (hashTableSet (hashTableCreate ℚ 1 Nat.one_pos) (ascii "a") cacheValueDecimal (.decimal 1) 0).2

theorem tableWithA_reachable : Reachable tableWithA :=
  .call (.set (ascii "a") cacheValueDecimal (.decimal 1) 0) (.create 1 Nat.one_pos)
    (Or.inl ⟨rfl, rfl⟩)

end Memuncached.Server
