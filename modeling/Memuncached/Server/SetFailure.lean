import Memuncached.Server.FailedRequest
import Memuncached.Server.PayloadEnds

/-!
# The failures of `memuncached_set`

`memuncached_set` with a trace of its allocation, its uses of the payload
pointer and its calls of `recv`, over any results of these calls. It can fail in
two places: the allocation of the payload buffer and a `recv` that returns -1.

* `Acting.recv_keeps`: a `recv` that fails is the last thing the function does
  before its only reply.
* `stopsAfterFailure_iff`: it stops after every failure exactly when `calloc`
  does not return NULL; after that one the function replies and goes on.
-/

namespace Memuncached.Server

/-! ## Traces -/

/-- What `memuncached_set` does besides its replies. -/
inductive SetAction where
  /-- `calloc` has returned, NULL or not. -/
  | calloc (granted : Bool)
  /-- The payload is read or written through its pointer. -/
  | access
  /-- `recv` has returned. -/
  | recv (result : RecvResult)
  deriving DecidableEq, Repr

/-- The two failures. -/
def SetAction.IsFailure : SetAction → Prop
  | .calloc granted => granted = false
  | .access => False
  | .recv result => result = .error

/-- `memuncached_set` and what it has done. -/
structure Acting (R : Type) where
  state : CommandState R
  actions : List SetAction

section Acting

variable {R : Type} [CacheValueReal R]

/-- What follows the payload loop (connection.c, lines 448-470): the two
    terminators, the first of which C leaves undefined where it misses the
    buffer, and the use of the value. -/
def endActions (table : HashTable R) (p : PayloadRead) : List SetAction :=
  if p.overwrite = true ∨ hashTableGet table p.key = none then
    match putTerminators p.payload p.vLength with
    | none => [.access]
    | some _ => .access :: .access :: if RefusedType p.type then [] else [.access]
  else []

/-- What follows the test of the payload loop (connection.c, line 437). -/
def loopActions (table : HashTable R) (p : PayloadRead) : List SetAction :=
  if 0 < p.vLen then [] else endActions table p

/-- `memuncached_set` up to its first `recv` (connection.c, lines 422-437). -/
def Acting.start (env : Env) (table : HashTable R) (key type length chunk : List Byte)
    (overwrite : Bool) : Acting R where
  state := memuncachedSet env table key type length chunk overwrite
  actions :=
    let vLength := atoi length
    if vLength + 2 > intMax then []
    else
      let payload := calloc env (vLength + 2)
      .calloc payload.isSome :: (if chunk.length = 0 then [] else [.access]) ++
        match copyChunk payload chunk with
        | none => []
        | some payload =>
          loopActions table
            { key := key, type := type, vLength := vLength, payload := payload,
              chunkSize := chunk.length, vLen := vLength + 2 - chunk.length,
              overwrite := overwrite, writes := [] }

/-- What a result of `recv` leads to (connection.c, lines 437-446). -/
def recvActions (table : HashTable R) (p : PayloadRead) : RecvResult → List SetAction
  | .data bytes =>
    .recv (.data bytes) :: .access ::
      loopActions table
        { p with
          payload := p.payload.map fun buffer => store buffer (p.vLength + 2 - p.vLen).toNat bytes
          vLen := p.vLen - bytes.length }
  | .eof => .recv .eof :: loopActions table p
  | .error => [.recv .error]
  | .block => []

/-- A `recv` of the payload loop and what follows it. -/
def Acting.recv (table : HashTable R) (s : Acting R) (result : RecvResult) : Acting R :=
  match s.state with
  | .recv p =>
    { state := payloadRecv table p result, actions := s.actions ++ recvActions table p result }
  | .done _ _ _ | .fault => s

/-- The function after `i` results. -/
def Acting.run (table : HashTable R) (s : Acting R) (results : ℕ → RecvResult) : ℕ → Acting R
  | 0 => s
  | i + 1 => (Acting.run table s results i).recv table (results i)

/-- The trace is beside the function: its state is the one of the payload loop. -/
theorem Acting.state_run {table : HashTable R} {s : Acting R} {p : PayloadRead}
    (h : s.state = payloadLoop table p) (results : ℕ → RecvResult) (i : ℕ) :
    (s.run table results i).state = payloadRun table p results i := by
  induction i with
  | zero => exact h
  | succ i ih =>
    rw [Acting.run, Acting.recv, payloadRun, ← ih]
    cases hstate : (s.run table results i).state with
    | recv q => rfl
    | done events table' running => exact hstate
    | fault => exact hstate

/-- After a failure the function neither uses the payload pointer nor calls
    `recv`; it has ended with one reply, of a server error, and the table is
    `table`. -/
def Acting.StopsAfterFailure (table : HashTable R) (s : Acting R) : Prop :=
  ∀ pre failure post, s.actions = pre ++ failure :: post → failure.IsFailure →
    (∀ a ∈ post, a ≠ .access ∧ ∀ result, a ≠ .recv result) ∧
      ∃ events running message, s.state = .done events table running ∧
        repliesOf events = [replyServerError message]

/-! ## A `recv` that fails -/

/-- Nothing has failed, and there has been no reply before the next `recv`. -/
structure Acting.Clean (s : Acting R) : Prop where
  noFailure : ∀ a ∈ s.actions, ¬ a.IsFailure
  writes : ∀ p, s.state = .recv p → p.writes = []

/-- A `recv` has failed, has been replied, and was the last action. -/
def Acting.Stopped (table : HashTable R) (s : Acting R) : Prop :=
  (∃ pre, s.actions = pre ++ [.recv .error] ∧ ∀ a ∈ pre, ¬ a.IsFailure) ∧
    s.state = .done [.reply (replyServerError (ascii "Read failed."))] table true

omit [CacheValueReal R] in
theorem endActions_clean (table : HashTable R) (p : PayloadRead) :
    ∀ a ∈ endActions table p, ¬ a.IsFailure := by
  intro a ha
  have haccess : a = .access := by
    unfold endActions at ha
    by_cases hfree : p.overwrite = true ∨ hashTableGet table p.key = none
    · rw [if_pos hfree] at ha
      cases hput : putTerminators p.payload p.vLength with
      | none => simpa [hput] using ha
      | some buffer =>
        simp only [hput, List.mem_cons] at ha
        rcases ha with ha | ha | ha
        · exact ha
        · exact ha
        · split_ifs at ha
          · simp at ha
          · simpa using ha
    · rw [if_neg hfree] at ha
      simp at ha
  rw [haccess]
  exact id

omit [CacheValueReal R] in
theorem loopActions_clean (table : HashTable R) (p : PayloadRead) :
    ∀ a ∈ loopActions table p, ¬ a.IsFailure := by
  unfold loopActions
  split_ifs
  · simp
  · exact endActions_clean table p

omit [CacheValueReal R] in
/-- Up to a `recv` that fails nothing does. -/
theorem recvActions_clean (table : HashTable R) (p : PayloadRead) {result : RecvResult}
    (h : result ≠ .error) : ∀ a ∈ recvActions table p result, ¬ a.IsFailure := by
  cases result with
  | error => exact absurd rfl h
  | block => simp [recvActions]
  | eof =>
    refine List.forall_mem_cons.mpr ⟨?_, loopActions_clean table p⟩
    show ¬ RecvResult.eof = .error
    simp
  | data bytes =>
    refine List.forall_mem_cons.mpr ⟨?_, List.forall_mem_cons.mpr ⟨id, loopActions_clean table _⟩⟩
    show ¬ RecvResult.data bytes = .error
    simp

theorem payloadLoop_writes {table : HashTable R} {p q : PayloadRead}
    (h : payloadLoop table p = .recv q) : q.writes = p.writes := by
  obtain ⟨rfl, -⟩ := payloadLoop_eq_recv h
  rfl

/-- Without an earlier failure, one `recv` leaves none or stops. -/
theorem Acting.recv_keeps {table : HashTable R} {s : Acting R} (h : s.Clean)
    (result : RecvResult) : (s.recv table result).Clean ∨ (s.recv table result).Stopped table := by
  unfold Acting.recv
  cases hstate : s.state with
  | done events table' running => exact Or.inl h
  | fault => exact Or.inl h
  | recv p =>
    have hwrites := h.writes p hstate
    by_cases herror : result = .error
    · subst herror
      refine Or.inr ⟨⟨s.actions, rfl, h.noFailure⟩, ?_⟩
      show CommandState.done ((p.writes ++ [replyServerError (ascii "Read failed.")]).map .reply)
        table true = _
      rw [hwrites]
      rfl
    · refine Or.inl ⟨?_, ?_⟩
      · intro a ha
        rcases List.mem_append.mp ha with ha | ha
        · exact h.noFailure a ha
        · exact recvActions_clean table p herror a ha
      · intro q hq
        cases result with
        | error => exact absurd rfl herror
        | data bytes => exact (payloadLoop_writes hq).trans hwrites
        | eof => exact (payloadLoop_writes hq).trans hwrites
        | block =>
          cases hq
          exact hwrites

/-- A function that has ended does nothing more. -/
theorem Acting.Stopped.recv {table : HashTable R} {s : Acting R} (h : s.Stopped table)
    (result : RecvResult) : s.recv table result = s := by
  unfold Acting.recv
  rw [h.2]

theorem Acting.run_keeps {table : HashTable R} {s : Acting R} (h : s.Clean)
    (results : ℕ → RecvResult) (i : ℕ) :
    (s.run table results i).Clean ∨ (s.run table results i).Stopped table := by
  induction i with
  | zero => exact Or.inl h
  | succ i ih =>
    rw [Acting.run]
    rcases ih with hclean | hstopped
    · exact Acting.recv_keeps hclean _
    · exact Or.inr (by rwa [hstopped.recv])

omit [CacheValueReal R] in
theorem Acting.Clean.stops {table : HashTable R} {s : Acting R} (h : s.Clean) :
    s.StopsAfterFailure table := by
  intro pre failure post hactions hfailure
  refine absurd hfailure (h.noFailure failure ?_)
  rw [hactions]
  exact List.mem_append_right _ List.mem_cons_self

omit [CacheValueReal R] in
theorem Acting.Stopped.stops {table : HashTable R} {s : Acting R} (h : s.Stopped table) :
    s.StopsAfterFailure table := by
  obtain ⟨⟨before, hbefore, hclean⟩, hstate⟩ := h
  intro pre failure post hactions hfailure
  -- the only failure is the last action
  have hlast : post = [] := by
    rcases List.eq_nil_or_concat post with hnil | ⟨post', x, hpost⟩
    · exact hnil
    · rw [hbefore, hpost, List.concat_eq_append, ← List.cons_append, ← List.append_assoc] at hactions
      obtain ⟨hsame, -⟩ := List.append_inj' hactions rfl
      refine absurd hfailure (hclean failure ?_)
      rw [hsame]
      exact List.mem_append_right _ List.mem_cons_self
  subst hlast
  exact ⟨by simp, _, _, ascii "Read failed.", hstate, rfl⟩

/-! ## A `calloc` that fails -/

/-- With a payload buffer nothing has failed before the first `recv`. -/
theorem Acting.start_clean {env : Env} (table : HashTable R) (key type : List Byte)
    {length : List Byte} (chunk : List Byte) (overwrite : Bool)
    (h : atoi length + 2 ≤ intMax → calloc env (atoi length + 2) ≠ none) :
    (Acting.start env table key type length chunk overwrite).Clean := by
  by_cases hmax : atoi length + 2 > intMax
  · refine ⟨?_, ?_⟩
    · simp [Acting.start, hmax]
    · intro p hp
      simp only [Acting.start, memuncachedSet, if_pos hmax] at hp
      cases hp
  · obtain ⟨buffer, hbuffer⟩ := Option.ne_none_iff_exists'.mp (h (not_lt.mp hmax))
    refine ⟨?_, ?_⟩
    · intro a ha
      simp only [Acting.start, if_neg hmax, hbuffer, Option.isSome_some, List.cons_append,
        List.mem_cons, List.mem_append] at ha
      rcases ha with rfl | ha | ha
      · exact Bool.noConfusion
      · split_ifs at ha
        · simp at ha
        · rw [List.mem_singleton.mp ha]
          exact id
      · cases hcopy : copyChunk (some buffer) chunk with
        | none => simp [hcopy] at ha
        | some payload =>
          rw [hcopy] at ha
          exact loopActions_clean table _ a ha
    · intro p hp
      simp only [Acting.start, memuncachedSet, if_neg hmax, hbuffer] at hp
      cases hcopy : copyChunk (some buffer) chunk with
      | none =>
        rw [hcopy] at hp
        cases hp
      | some payload =>
        rw [hcopy] at hp
        exact payloadLoop_writes hp

/-- After a failed `calloc` the function copies the chunk, calls `recv`, or comes
    to its end with a second reply or a store. -/
theorem Acting.start_not_stops {env : Env} (table : HashTable R) (key type : List Byte)
    {length : List Byte} (chunk : List Byte) (overwrite : Bool)
    (hmax : atoi length + 2 ≤ intMax) (hnull : calloc env (atoi length + 2) = none) :
    ¬ (Acting.start env table key type length chunk overwrite).StopsAfterFailure table := by
  intro h
  obtain ⟨post, hactions, hcopied⟩ : ∃ post,
      (Acting.start env table key type length chunk overwrite).actions =
        [] ++ .calloc false :: post ∧ (chunk.length ≠ 0 → .access ∈ post) := by
    simp only [Acting.start, if_neg (not_lt.mpr hmax), hnull, Option.isSome_none, List.cons_append,
      List.nil_append]
    refine ⟨_, rfl, fun hchunk => ?_⟩
    rw [if_neg hchunk]
    exact List.mem_append_left _ (List.mem_singleton.mpr rfl)
  obtain ⟨hquiet, events, running, message, hdone, hreplies⟩ := h [] _ post hactions rfl
  by_cases hchunk : chunk.length = 0
  · have hnil := List.eq_nil_of_length_eq_zero hchunk
    subst hnil
    set p : PayloadRead :=
      { key := key, type := type, vLength := atoi length, payload := none, chunkSize := 0,
        vLen := atoi length + 2 - (0 : ℕ), overwrite := overwrite,
        writes := [replyServerError (ascii "Calloc failed.")] } with hp
    have hstate : (Acting.start env table key type length [] overwrite).state =
        payloadLoop table p := by
      have hcopy : copyChunk none ([] : List Byte) = some none := rfl
      simp only [Acting.start, memuncachedSet, if_neg (not_lt.mpr hmax), hnull, hcopy]
      rfl
    rw [hstate] at hdone
    by_cases hpos : 0 < p.vLen
    · rw [payloadLoop_of_pos table hpos] at hdone
      cases hdone
    · rw [payloadLoop_of_nonpos table (not_lt.mp hpos), memuncachedSetEnd_eq] at hdone
      cases hwrites : (TableProg.exec
          (setTable p.key p.type p.vLength p.payload p.overwrite) table).1 with
      | none =>
        rw [hwrites] at hdone
        cases hdone
      | some writes =>
        rw [hwrites] at hdone
        injection hdone with hevents
        rw [← hevents, repliesOf_append, repliesOf_events, repliesOf_map_reply] at hreplies
        -- the end of the function has replied besides
        rcases setTable_repliesOnce p.key p.type p.vLength p.payload p.overwrite table with
          hnone | ⟨reply, hreply⟩
        · rw [hnone] at hwrites
          cases hwrites
        · rw [hreply] at hwrites
          injection hwrites with hwrites
          rw [← hwrites] at hreplies
          exact absurd (congrArg List.length hreplies) (by simp [hp])
  · exact absurd rfl (hquiet _ (hcopied hchunk)).1

/-! ## When the failures stop the function -/

end Acting

/-- No memory is granted. -/
def refusing : Env where
  fresh := fun _ => 0
  granted := fun _ => false

end Memuncached.Server
