import Memuncached.Server.FailedRequest

/-!
# The arithmetic of LENGTH

LENGTH is a text of digits of any length; `memuncached_set` reads it with `atol`
into an `int` and computes the size of its payload buffer and the indices of the
terminators from that.

* `lengthFits_iff`: this is sound up to `INT_MAX - 2`.
* `lengthSound_iff`: a larger LENGTH does no harm only where the request is
  refused for another reason, at its end.
-/

namespace Memuncached.Server

open Segments

/-- `INT_MIN`. -/
def intMin : ℤ := -2147483648

/-- The number in `v_length` is the one LENGTH denotes, the sums with it are
    `int`s, and the terminators are inside the payload buffer. -/
structure LengthFits (env : Env) (length : List Byte) (payloadChunkSize : ℕ) : Prop where
  value : atoi length = decimalValue length
  size : intMin ≤ atoi length + 2 ∧ atoi length + 2 ≤ intMax
  remaining : intMin ≤ atoi length + 2 - payloadChunkSize ∧
    atoi length + 2 - payloadChunkSize ≤ intMax
  index_nonneg : 0 ≤ atoi length
  index_lt : ∃ buffer, calloc env (atoi length + 2) = some buffer ∧
    atoi length + 1 < buffer.length

section Length

variable {R : Type} [CacheValueReal R]

/-- The command comes to its end and has sent an error reply. -/
def Rejected (table : HashTable R) (s : CommandState R × Socket) : Prop :=
  ∃ n events table' running, (runCommand table n s).1 = .done events table' running ∧
    ∃ reply ∈ repliesOf events, ¬ isOk reply

/-- The request is rejected or its LENGTH is handled without wrapping. -/
def LengthSound (env : Env) (table : HashTable R) (key type length chunk : List Byte)
    (overwrite : Bool) (socket : Socket) : Prop :=
  Rejected table (memuncachedSet env table key type length chunk overwrite, socket) ∨
    LengthFits env length chunk.length

/-- The request is refused whatever number LENGTH is: its payload buffer exists,
    takes the chunk and is filled, and the key exists or the type is none; or
    there is a read error before it is filled, or no buffer to read into. `s` is
    what the peer sends and `ending` what follows. -/
def RefusedAnyway (env : Env) (table : HashTable R) (key type length : List Byte) (k : ℕ)
    (overwrite : Bool) (s : List Byte) (ending : StreamEnd) : Prop :=
  atoi length + 2 ≤ intMax ∧
    match calloc env (atoi length + 2) with
    | some buffer =>
      k ≤ buffer.length ∧
        if atoi length + 2 ≤ k + s.length then
          (overwrite = false ∧ hashTableGet table key ≠ none) ∨ (0 ≤ atoi length ∧ RefusedType type)
        else ending = .error
    | none =>
      k = 0 ∧
        if 0 < atoi length + 2 then s ≠ [] ∨ ending = .error
        else overwrite = false ∧ hashTableGet table key ≠ none

/-! ## The lengths that fit -/

theorem atoi_decimalString {length : List Byte} (h : isPositiveDecimal length = true) :
    atoi length = toInt (min int64Max (decimalValue length)) := by
  have hsplit : length.headD 0 ≠ 45 ∧ isDecimalString length = true := by
    simpa [isPositiveDecimal] using h
  rw [atoi, strtol_decimalString hsplit.2 hsplit.1]

theorem atoi_eq_decimalValue {length : List Byte} (h : isPositiveDecimal length = true)
    (hmax : (decimalValue length : ℤ) + 2 ≤ intMax) : atoi length = decimalValue length := by
  unfold intMax at hmax
  rw [atoi_decimalString h, min_eq_right (by unfold int64Max; omega),
    toInt_of_range (by omega) (by unfold intMax; omega)]

/-- LENGTH fits up to `INT_MAX - 2`, given the memory. -/
theorem lengthFits_iff {env : Env} {length : List Byte} (hlength : isPositiveDecimal length = true)
    {k : ℕ} (hk : (k : ℤ) ≤ intMax) :
    LengthFits env length k ↔
      (decimalValue length : ℤ) + 2 ≤ intMax ∧ calloc env (decimalValue length + 2) ≠ none := by
  constructor
  · intro h
    have hsize := h.size.2
    obtain ⟨buffer, hbuffer, -⟩ := h.index_lt
    rw [h.value] at hsize hbuffer
    exact ⟨hsize, by rw [hbuffer]; simp⟩
  · intro ⟨hsize, hgrant⟩
    have hvalue := atoi_eq_decimalValue hlength hsize
    obtain ⟨buffer, hbuffer⟩ := Option.ne_none_iff_exists'.mp hgrant
    have hlen := (calloc_eq_some hbuffer).1
    unfold intMax at hsize hk
    refine ⟨hvalue, ?_, ?_, ?_, ?_⟩
    · unfold intMin intMax
      omega
    · unfold intMin intMax
      omega
    · omega
    · exact ⟨buffer, by rw [hvalue, hbuffer], by omega⟩

/-! ## Requests that are rejected -/

/-- A command that has ended, or whose behaviour is undefined, is rejected as it
    is. -/
theorem rejected_of_runCommand {table : HashTable R} {s : CommandState R × Socket} {m : ℕ}
    {state : CommandState R} {socket : Socket} (hm : runCommand table m s = (state, socket))
    (hend : ∀ p, state ≠ .recv p) :
    Rejected table s ↔ ∃ events table' running, state = .done events table' running ∧
      ∃ reply ∈ repliesOf events, ¬ isOk reply := by
  constructor
  · intro ⟨n, events, table', running, hdone, herror⟩
    have hsame := runCommand_ended table (m := n) (n := m) (s := s) (by rw [hdone]; simp)
      (by rw [hm]; exact hend)
    rw [hsame, hm] at hdone
    exact ⟨events, table', running, hdone, herror⟩
  · intro ⟨events, table', running, hdone, herror⟩
    exact ⟨m, events, table', running, by rw [hm]; exact hdone, herror⟩

/-- A command that waits for ever is not. -/
theorem not_rejected_of_stuck {table : HashTable R} {s : CommandState R × Socket} {m : ℕ}
    {q : PayloadRead} {socket : Socket} (hm : runCommand table m s = (.recv q, socket))
    (hstep : commandStep table (.recv q, socket) = (.recv q, socket)) : ¬ Rejected table s := by
  rintro ⟨n, events, table', running, hdone, -⟩
  obtain ⟨p, hp⟩ := runCommand_stuck table hm hstep n
  rw [hdone] at hp
  cases hp

theorem putTerminators_payload {payload : Option (List Byte)} {vLength : ℤ} {buffer : List Byte}
    (h : putTerminators payload vLength = some buffer) : payload ≠ none := by
  rintro rfl
  cases h

theorem not_isOk_replyKeyExists : ¬ isOk replyKeyExists :=
  not_isOk_responseWrite (by decide) (by decide) _

/-- The reply at the end of `memuncached_set` is among its replies. -/
theorem last_reply_of_done (p : PayloadRead) {reply : List Byte} (h : ¬ isOk reply) :
    ∃ reply' ∈ repliesOf (p.events ++ (p.writes ++ [reply]).map .reply), ¬ isOk reply' := by
  refine ⟨reply, ?_, h⟩
  rw [repliesOf_append, repliesOf_events, repliesOf_map_reply, List.nil_append]
  exact List.mem_append_right _ (List.mem_singleton.mpr rfl)

/-- The end of `memuncached_set` refuses an ADD of a key with a value and a type
    that is none. -/
theorem memuncachedSetEnd_rejects_iff (table : HashTable R) {p : PayloadRead}
    (hwrites : p.payload ≠ none → p.writes = []) :
    (∃ events table' running, memuncachedSetEnd table p = .done events table' running ∧
        ∃ reply ∈ repliesOf events, ¬ isOk reply) ↔
      (p.overwrite = false ∧ hashTableGet table p.key ≠ none) ∨
        (∃ buffer, putTerminators p.payload p.vLength = some buffer ∧ RefusedType p.type) := by
  rw [memuncachedSetEnd_eq, exec_setTable]
  by_cases hkey : p.overwrite = true ∨ hashTableGet table p.key = none
  · have hfirst : ¬ (p.overwrite = false ∧ hashTableGet table p.key ≠ none) := by
      rintro ⟨hover, hget⟩
      rcases hkey with h | h
      · rw [hover] at h
        cases h
      · exact hget h
    rw [if_pos hkey]
    simp only [hfirst, false_or]
    cases hput : putTerminators p.payload p.vLength with
    | none =>
      rw [setValue_none p.key p.type hput table]
      exact iff_of_false (by simp) (by simp)
    | some buffer =>
      simp only [Option.some.injEq, exists_eq_left']
      rw [← @setResult_eq_none R _ p.key p.type p.vLength buffer]
      cases hres : setResult (R := R) p.key (p.type.headD 0 - 48) p.vLength buffer with
      | none =>
        rw [setValue_rejects hput hres table]
        exact iff_of_true ⟨_, _, _, rfl, last_reply_of_done p (not_isOk_replyBadRequest _)⟩ rfl
      | some v =>
        obtain ⟨hreply, -⟩ := setValue_stores hput hres table
        rw [hreply, hwrites (putTerminators_payload hput)]
        refine iff_of_false ?_ (by simp)
        rintro ⟨events, table', running, hdone, reply, hmem, herror⟩
        injection hdone with hevents
        rw [← hevents, repliesOf_append, repliesOf_events, repliesOf_map_reply] at hmem
        rw [List.mem_singleton.mp hmem] at herror
        exact herror (isOk_replySuccess [])
  · rw [if_neg hkey]
    rw [not_or, Bool.not_eq_true] at hkey
    exact iff_of_true ⟨_, _, _, rfl, last_reply_of_done p not_isOk_replyKeyExists⟩ (Or.inl hkey)

/-- The payload loop with enough bytes in the stream. -/
theorem rejected_complete_iff (table : HashTable R) (ending : StreamEnd) (p : PayloadRead)
    (hwrites : p.writes = []) {got tail s : List Byte} (hbuf : p.payload = some (got ++ tail))
    (hlen : p.vLength + 2 = (got.length : ℤ) + tail.length) (hv : p.vLen = tail.length)
    {segs : List (List Byte)} (hcut : Cut segs s) (hs : tail.length ≤ s.length) :
    Rejected table (payloadLoop table p, { segments := segs, ending := ending }) ↔
      (p.overwrite = false ∧ hashTableGet table p.key ≠ none) ∨
        (0 ≤ p.vLength ∧ RefusedType p.type) := by
  obtain ⟨n, hn⟩ := runCommand_payload table ending p hbuf hlen hv hcut hs
  set buffer := got ++ s.take tail.length with hbuffer
  have hfull : (buffer.length : ℤ) = p.vLength + 2 := by
    rw [hbuffer, List.length_append, List.length_take, min_eq_left hs]
    omega
  have hput : (∃ b, putTerminators (some buffer) p.vLength = some b ∧ RefusedType p.type) ↔
      0 ≤ p.vLength ∧ RefusedType p.type := by
    by_cases h0 : 0 ≤ p.vLength
    · rw [putTerminators_some ⟨h0, by omega⟩]
      simp [h0]
    · rw [putTerminators_none (fun b hb => by simp [h0])]
      simp [h0]
  have hend := memuncachedSetEnd_rejects_iff table (p := { p with payload := some buffer, vLen := 0 })
    (fun _ => hwrites)
  rw [rejected_of_runCommand hn, hend, hput]
  intro q hq
  have hloop : payloadLoop table { p with payload := some buffer, vLen := 0 } = .recv q := by
    rw [payloadLoop_of_nonpos table (le_refl _)]
    exact hq
  exact absurd (payloadLoop_eq_recv hloop).2 (by simp)

/-- The payload loop with too few bytes in the stream. -/
theorem rejected_short_iff (table : HashTable R) (ending : StreamEnd) (p : PayloadRead)
    {got tail s : List Byte} (hbuf : p.payload = some (got ++ tail))
    (hlen : p.vLength + 2 = (got.length : ℤ) + tail.length) (hv : p.vLen = tail.length)
    {segs : List (List Byte)} (hcut : Cut segs s) (hs : s.length < tail.length) :
    Rejected table (payloadLoop table p, { segments := segs, ending := ending }) ↔
      ending = .error := by
  obtain ⟨n, hn⟩ := runCommand_fill table ending p hbuf hlen hv hcut
  set q : PayloadRead :=
    { p with
      payload := some (got ++ s.take tail.length ++ tail.drop s.length),
      vLen := (tail.length - s.length : ℕ) } with hq
  have hpos : 0 < q.vLen := by
    show (0 : ℤ) < (tail.length - s.length : ℕ)
    omega
  have hempty : dropBytes tail.length segs = [] := by
    have hrest := hcut.dropBytes tail.length
    rw [List.drop_eq_nil_of_le hs.le] at hrest
    exact hrest.eq_nil
  have hrecv : q.recv { segments := [], ending := ending } =
      (ending.result, { segments := [], ending := ending }) := Socket.recv_end (by omega)
  rw [payloadLoop_of_pos table hpos, hempty] at hn
  have hstep : commandStep table (.recv q, { segments := [], ending := ending }) =
      (payloadRecv table q ending.result, { segments := [], ending := ending }) := by
    simp only [commandStep, hrecv]
  cases ending with
  | idle => exact iff_of_false (not_rejected_of_stuck hn hstep) (by simp)
  | eof =>
    refine iff_of_false (not_rejected_of_stuck hn ?_) (by simp)
    rw [hstep]
    exact congrArg (·, _) (payloadLoop_of_pos table hpos)
  | error =>
    have hdone : runCommand table (1 + n)
        (payloadLoop table p, { segments := segs, ending := .error }) =
        (payloadRecv table q .error, { segments := [], ending := .error }) := by
      rw [runCommand_add, hn, runCommand_one]
      exact hstep
    rw [rejected_of_runCommand hdone (by simp [payloadRecv])]
    refine iff_of_true ⟨_, _, _, rfl, _, ?_, not_isOk_replyServerError (ascii "Read failed.")⟩ rfl
    rw [repliesOf_map_reply]
    exact List.mem_append_right _ (List.mem_singleton.mpr rfl)

section Set

variable {env : Env} {table : HashTable R} {key type length chunk : List Byte} {overwrite : Bool}
variable {segs : List (List Byte)} {s : List Byte} {ending : StreamEnd}

/-- With a payload buffer that the chunk fits into. -/
theorem rejected_buffer_iff (hmax : atoi length + 2 ≤ intMax) {buffer : List Byte}
    (hbuffer : calloc env (atoi length + 2) = some buffer) (hk : chunk.length ≤ buffer.length)
    (hcut : Cut segs s) :
    Rejected table (memuncachedSet env table key type length chunk overwrite,
        { segments := segs, ending := ending }) ↔
      if atoi length + 2 ≤ chunk.length + s.length then
        (overwrite = false ∧ hashTableGet table key ≠ none) ∨ (0 ≤ atoi length ∧ RefusedType type)
      else ending = .error := by
  obtain ⟨hlen, hgrant⟩ := calloc_eq_some hbuffer
  rw [memuncachedSet_eq_size table key type hlen.symm (by omega) hgrant hk]
  set tail := List.replicate (buffer.length - chunk.length) (0 : Byte) with htail
  have htlen : tail.length = buffer.length - chunk.length := List.length_replicate
  set p : PayloadRead :=
    { key := key, type := type, vLength := atoi length, payload := some (chunk ++ tail),
      chunkSize := chunk.length, vLen := atoi length + 2 - chunk.length, overwrite := overwrite,
      writes := [] } with hp
  have hpbuf : p.payload = some (chunk ++ tail) := rfl
  have hplen : p.vLength + 2 = (chunk.length : ℤ) + tail.length := by
    show atoi length + 2 = _
    omega
  have hpv : p.vLen = tail.length := by
    show atoi length + 2 - _ = _
    omega
  split_ifs with hs
  · exact rejected_complete_iff table ending p rfl hpbuf hplen hpv hcut (by omega)
  · exact rejected_short_iff table ending p hpbuf hplen hpv hcut (by omega)

/-- Without a payload buffer. -/
theorem rejected_null_iff (hmax : atoi length + 2 ≤ intMax)
    (hnull : calloc env (atoi length + 2) = none) (hcut : Cut segs s) :
    Rejected table (memuncachedSet env table key type length [] overwrite,
        { segments := segs, ending := ending }) ↔
      if 0 < atoi length + 2 then s ≠ [] ∨ ending = .error
      else overwrite = false ∧ hashTableGet table key ≠ none := by
  set p : PayloadRead :=
    { key := key, type := type, vLength := atoi length, payload := none, chunkSize := 0,
      vLen := atoi length + 2, overwrite := overwrite,
      writes := [replyServerError (ascii "Calloc failed.")] } with hp
  have hset : memuncachedSet env table key type length [] overwrite = payloadLoop table p := by
    have hcopy : copyChunk none ([] : List Byte) = some none := rfl
    unfold memuncachedSet
    dsimp only
    rw [if_neg (by omega), hnull, hcopy]
    simp only [List.length_nil, Nat.cast_zero, sub_zero]
    rfl
  rw [hset]
  split_ifs with hpos
  · -- `recv` has no buffer to write to
    rw [payloadLoop_of_pos table (show 0 < p.vLen from hpos)]
    have hw : ¬ p.vLen.toNat = 0 := by
      show ¬ (atoi length + 2).toNat = 0
      omega
    have hfails : ∀ socket : Socket, p.recv socket = (.error, socket) →
        Rejected table (.recv p, socket) := by
      intro socket hrecv
      have hdone : runCommand table 1 (.recv p, socket) = (payloadRecv table p .error, socket) := by
        rw [runCommand_one]
        simp only [commandStep, hrecv]
      rw [rejected_of_runCommand hdone (by simp [payloadRecv])]
      exact ⟨_, _, _, rfl, replyServerError (ascii "Read failed."),
        by rw [repliesOf_map_reply]; exact List.mem_append_right _ (List.mem_singleton.mpr rfl),
        not_isOk_replyServerError _⟩
    by_cases hs : s = []
    · subst hs
      have hnil := hcut.eq_nil
      subst hnil
      have hrecv : p.recv { segments := [], ending := ending } =
          (ending.result, { segments := [], ending := ending }) := by
        show Socket.recvNull _ p.vLen.toNat = _
        rw [Socket.recvNull, if_neg hw]
        rfl
      have hstep : commandStep table (.recv p, { segments := [], ending := ending }) =
          (payloadRecv table p ending.result, { segments := [], ending := ending }) := by
        simp only [commandStep, hrecv]
      cases ending with
      | idle => exact iff_of_false (not_rejected_of_stuck (m := 0) rfl hstep) (by simp)
      | eof =>
        refine iff_of_false (not_rejected_of_stuck (m := 0) rfl ?_) (by simp)
        rw [hstep]
        exact congrArg (·, _) (payloadLoop_of_pos table hpos)
      | error => exact iff_of_true (hfails _ hrecv) (Or.inr rfl)
    · obtain ⟨seg, rest, rfl⟩ := hcut.exists_cons hs
      refine iff_of_true (hfails _ ?_) (Or.inl hs)
      show Socket.recvNull _ p.vLen.toNat = _
      rw [Socket.recvNull, if_neg hw, if_neg (by simp)]
  · rw [payloadLoop_of_nonpos table (show p.vLen ≤ 0 from not_lt.mp hpos),
      rejected_of_runCommand (m := 0) rfl, memuncachedSetEnd_rejects_iff table (by simp [hp])]
    · simp [hp, putTerminators]
    · intro q hq
      have hloop : payloadLoop table p = .recv q := by
        rw [payloadLoop_of_nonpos table (show p.vLen ≤ 0 from not_lt.mp hpos)]
        exact hq
      exact hpos (payloadLoop_eq_recv hloop).2

/-- LENGTH is handled without wrapping up to `INT_MAX - 2`, given the memory, and
    otherwise the request is rejected for another reason, only. -/
theorem lengthSound_iff (hlength : isPositiveDecimal length = true)
    (hk : (chunk.length : ℤ) ≤ intMax) (hcut : Cut segs s) :
    LengthSound env table key type length chunk overwrite
        { segments := segs, ending := ending } ↔
      ((decimalValue length : ℤ) + 2 ≤ intMax ∧ calloc env (decimalValue length + 2) ≠ none) ∨
        RefusedAnyway env table key type length chunk.length overwrite s ending := by
  unfold LengthSound
  rw [lengthFits_iff hlength hk, or_comm]
  refine or_congr_right ?_
  have hnot : memuncachedSet env table key type length chunk overwrite = .fault →
      ¬ Rejected table (memuncachedSet env table key type length chunk overwrite,
        { segments := segs, ending := ending }) := by
    intro hfault
    have hstart : runCommand table 0
        ((.fault : CommandState R), ({ segments := segs, ending := ending } : Socket)) =
        (.fault, { segments := segs, ending := ending }) := rfl
    rw [hfault, rejected_of_runCommand hstart (by simp)]
    simp
  unfold RefusedAnyway
  by_cases hmax : atoi length + 2 ≤ intMax
  · simp only [hmax, true_and]
    cases hcalloc : calloc env (atoi length + 2) with
    | some buffer =>
      by_cases hlong : chunk.length ≤ buffer.length
      · simp only [hlong, true_and]
        exact rejected_buffer_iff hmax hcalloc hlong hcut
      · refine iff_of_false (hnot (memuncachedSet_undefined (Or.inr ?_) (Or.inr (by omega))))
          fun h => hlong h.1
        intro b hb
        rw [hcalloc] at hb
        cases hb
        omega
    | none =>
      by_cases hempty : chunk = []
      · subst hempty
        simp only [List.length_nil, true_and]
        exact rejected_null_iff hmax hcalloc hcut
      · have hpos : 0 < chunk.length := List.length_pos_iff.mpr hempty
        refine iff_of_false (hnot (memuncachedSet_undefined (Or.inr ?_) (Or.inr hpos)))
          fun h => absurd h.1 (by omega)
        intro b hb
        rw [hcalloc] at hb
        cases hb
  · exact iff_of_false (hnot (memuncachedSet_undefined (Or.inl (by omega)) (Or.inl (by omega))))
      fun h => hmax h.1

end Set

end Length

/-- The payload of one byte and its line end. -/
def oneByteSocket : Socket where
  segments := [ascii "x\r\n"]
  ending := .idle

theorem oneByteSocket_cut : Cut [ascii "x\r\n"] (ascii "x\r\n") := ⟨by decide, by decide⟩

theorem lengthSound_one :
    LengthSound Env.zero (hashTableCreate ℚ 1 Nat.one_pos) (ascii "a") (ascii "2") (ascii "1") [] true
      oneByteSocket :=
  (lengthSound_iff (by decide) (by decide) oneByteSocket_cut).mpr
    (Or.inl ⟨by decide, by decide⟩)

/-- `2 ^ 32 + 1` is read as 1, and a byte is stored. -/
theorem not_lengthSound_wrapped :
    isPositiveDecimal (ascii "4294967297") = true ∧
      ¬ LengthSound Env.zero (hashTableCreate ℚ 1 Nat.one_pos) (ascii "a") (ascii "2")
        (ascii "4294967297") [] true oneByteSocket := by
  refine ⟨by decide, ?_⟩
  rintro (hrejected | hfits)
  · have hiff := @rejected_buffer_iff ℚ _ Env.zero (hashTableCreate ℚ 1 Nat.one_pos) (ascii "a")
      (ascii "2") (ascii "4294967297") [] true _ _ .idle (by decide) [0, 0, 0] (by decide)
      (by decide) oneByteSocket_cut
    have hcond := hiff.mp hrejected
    rw [if_pos (by decide)] at hcond
    exact absurd hcond (by decide)
  · exact absurd hfits.value (by decide)

end Memuncached.Server
