import Memuncached.Server.Run

/-!
# Reading a payload

The payload loop of `memuncached_set`, as part of a command on its own
(`runCommand`) and of the handler.

* `runCommand_payload`: the loop fills the payload buffer with the next bytes of
  the stream, for every cut of it.
* `runCommand_short`: a stream with too few bytes never completes the payload.
* `serve_runCommand`: the handler carries a command on as `runCommand` does.
-/

namespace Memuncached.Server

open Segments

section Payload

variable {R : Type} [CacheValueReal R]

theorem runCommand_add (table : HashTable R) (m n : ℕ) (s : CommandState R × Socket) :
    runCommand table (m + n) s = runCommand table m (runCommand table n s) :=
  Function.iterate_add_apply _ m n s

theorem runCommand_one (table : HashTable R) (s : CommandState R × Socket) :
    runCommand table 1 s = commandStep table s := rfl

/-- A property that every step preserves holds throughout. -/
theorem runCommand_invariant {table : HashTable R} {P : CommandState R → Prop}
    (hrecv : ∀ p result, P (.recv p) → P (payloadRecv table p result))
    {s : CommandState R × Socket} (h0 : P s.1) (n : ℕ) : P (runCommand table n s).1 := by
  induction n with
  | zero => exact h0
  | succ n ih =>
    rw [Nat.add_comm, runCommand_add, runCommand_one]
    generalize runCommand table n s = s' at ih
    obtain ⟨state, socket⟩ := s'
    cases state with
    | done events table' running => exact ih
    | recv p => exact hrecv p _ ih
    | fault => exact ih

/-- A command that does not wait for its payload stays as it is. -/
theorem runCommand_stopped (table : HashTable R) {s : CommandState R × Socket}
    (hs : ∀ p, s.1 ≠ .recv p) (n : ℕ) : runCommand table n s = s := by
  have hone : commandStep table s = s := by
    obtain ⟨state, socket⟩ := s
    cases state with
    | done events table' running => rfl
    | recv p => exact absurd rfl (hs p)
    | fault => rfl
  exact Function.iterate_fixed hone n

/-- A command ends once. -/
theorem runCommand_ended (table : HashTable R) {s : CommandState R × Socket} {m n : ℕ}
    (hm : ∀ p, (runCommand table m s).1 ≠ .recv p) (hn : ∀ p, (runCommand table n s).1 ≠ .recv p) :
    runCommand table m s = runCommand table n s := by
  wlog hmn : m ≤ n generalizing m n
  · exact (this hn hm (not_le.mp hmn).le).symm
  · obtain ⟨k, rfl⟩ := Nat.exists_eq_add_of_le hmn
    rw [Nat.add_comm, runCommand_add, runCommand_stopped table hm]

/-- A command whose next step leads nowhere has not ended before. -/
theorem runCommand_stuck (table : HashTable R) {s : CommandState R × Socket} {m : ℕ}
    {q : PayloadRead} {socket : Socket} (hm : runCommand table m s = (.recv q, socket))
    (hstep : commandStep table (.recv q, socket) = (.recv q, socket)) (n : ℕ) :
    ∃ p, (runCommand table n s).1 = .recv p := by
  by_contra hne
  rw [not_exists] at hne
  rcases le_total m n with hmn | hnm
  · obtain ⟨k, rfl⟩ := Nat.exists_eq_add_of_le hmn
    refine hne q ?_
    have hfix : runCommand table k (.recv q, socket) = (.recv q, socket) :=
      Function.iterate_fixed hstep k
    rw [Nat.add_comm, runCommand_add, hm, hfix]
  · obtain ⟨k, rfl⟩ := Nat.exists_eq_add_of_le hnm
    rw [Nat.add_comm, runCommand_add, runCommand_stopped table hne] at hm
    exact hne q (congrArg Prod.fst hm)

/-- The handler carries a command on as `runCommand` does. -/
theorem serve_runCommand (env : Env) (h : Handler R) (n : ℕ) (s : CommandState R × Socket) :
    ∃ m, serve env m (h.resume s.1, s.2) =
      (h.resume (runCommand h.table n s).1, (runCommand h.table n s).2) := by
  induction n generalizing s with
  | zero => exact ⟨0, rfl⟩
  | succ n ih =>
    obtain ⟨state, socket⟩ := s
    cases state with
    | done events table' running =>
      exact ⟨0, by rw [runCommand_stopped h.table (by simp)]; rfl⟩
    | fault => exact ⟨0, by rw [runCommand_stopped h.table (by simp)]; rfl⟩
    | recv p =>
      obtain ⟨m, hm⟩ := ih (commandStep h.table (.recv p, socket))
      refine ⟨m + 1, ?_⟩
      have hstep : serve env 1 (h.resume (.recv p), socket) =
          (h.resume (commandStep h.table (.recv p, socket)).1,
            (commandStep h.table (.recv p, socket)).2) :=
        congrArg (·, (p.recv socket).2) (resume_control h (.recvPayload p) _)
      rw [serve_add, hstep, hm, runCommand_add, runCommand_one]

theorem payloadLoop_of_pos (table : HashTable R) {p : PayloadRead} (h : 0 < p.vLen) :
    payloadLoop table p = .recv p := if_pos h

theorem payloadLoop_of_nonpos (table : HashTable R) {p : PayloadRead} (h : p.vLen ≤ 0) :
    payloadLoop table p = memuncachedSetEnd table p := if_neg (by omega)

/-- The loop goes on as it is. -/
theorem payloadLoop_eq_recv {table : HashTable R} {p q : PayloadRead}
    (h : payloadLoop table p = .recv q) : p = q ∧ 0 < p.vLen := by
  unfold payloadLoop at h
  split_ifs at h with hpos
  · injection h with h
    exact ⟨h, hpos⟩
  · rw [memuncachedSetEnd_eq] at h
    split at h <;> cases h

/-- The payload loop with `got` in the buffer: it goes on until the buffer is
    full or the stream `s` used up. -/
theorem runCommand_fill (table : HashTable R) (ending : StreamEnd) (p : PayloadRead)
    {got tail s : List Byte} (hbuf : p.payload = some (got ++ tail))
    (hlen : p.vLength + 2 = (got.length : ℤ) + tail.length) (hv : p.vLen = tail.length)
    {segs : List (List Byte)} (hcut : Cut segs s) :
    ∃ n, runCommand table n (payloadLoop table p, { segments := segs, ending := ending }) =
      (payloadLoop table
          { p with
            payload := some (got ++ s.take tail.length ++ tail.drop s.length),
            vLen := (tail.length - s.length : ℕ) },
        { segments := dropBytes tail.length segs, ending := ending }) := by
  -- the induction is on the part of the buffer not filled yet
  induction hn : tail.length using Nat.strong_induction_on generalizing p got tail s segs with
  | _ len ih =>
  subst hn
  by_cases hstop : tail.length = 0 ∨ s = []
  · refine ⟨0, ?_⟩
    have hsame : { p with
        payload := some (got ++ s.take tail.length ++ tail.drop s.length),
        vLen := ((tail.length - s.length : ℕ) : ℤ) } = p := by
      obtain ⟨key, type, vLength, payload, chunkSize, vLen, overwrite, writes⟩ := p
      dsimp only at hbuf hv
      rw [hbuf, hv]
      rcases hstop with h0 | rfl
      · rw [List.eq_nil_of_length_eq_zero h0]
        simp
      · simp
    have hdrop : dropBytes tail.length segs = segs := by
      rcases hstop with h0 | rfl
      · rw [h0, dropBytes_zero hcut.ne_nil]
      · rw [hcut.eq_nil, dropBytes_nil]
    rw [hsame, hdrop]
    rfl
  · rw [not_or] at hstop
    obtain ⟨h0, hsne⟩ := hstop
    have hw : 0 < p.vLen.toNat := by omega
    obtain ⟨m, hm0, hm1, hm2, hrecv⟩ := @Socket.recv_data segs s ending hcut hsne _ hw
    have hmt : m ≤ tail.length := by omega
    have htlen : (s.take m).length = m := by
      rw [List.length_take, min_eq_left hm2]
    have hstore : store (got ++ tail) (p.vLength + 2 - p.vLen).toNat (s.take m) =
        (got ++ s.take m) ++ tail.drop m := by
      rw [store_append (by omega) (by omega), htlen]
    have hstep : runCommand table 1
        (payloadLoop table p, { segments := segs, ending := ending }) =
        (payloadLoop table
            { p with payload := some ((got ++ s.take m) ++ tail.drop m), vLen := p.vLen - m },
          { segments := dropBytes m segs, ending := ending }) := by
      rw [runCommand_one, payloadLoop_of_pos table (by omega)]
      simp only [commandStep, PayloadRead.recv, hbuf, Option.isNone_some, Bool.false_eq_true,
        if_false, hrecv, payloadRecv, Option.map_some, hstore, htlen]
    set p' : PayloadRead :=
      { p with payload := some ((got ++ s.take m) ++ tail.drop m), vLen := p.vLen - m } with hp'
    have hlen' : p'.vLength + 2 = ((got ++ s.take m).length : ℤ) + (tail.drop m).length := by
      show p.vLength + 2 = _
      rw [List.length_append, List.length_drop, htlen]
      omega
    have hv' : p'.vLen = (tail.drop m).length := by
      show p.vLen - m = _
      rw [List.length_drop]
      omega
    obtain ⟨n, hrun⟩ := ih (tail.drop m).length (by rw [List.length_drop]; omega) p' rfl hlen' hv'
      (hcut.dropBytes m) rfl
    refine ⟨n + 1, ?_⟩
    rw [runCommand_add, hstep, hrun, List.length_drop, dropBytes_add hcut.ne_nil,
      show m + (tail.length - m) = tail.length by omega]
    have htake : s.take m ++ (s.drop m).take (tail.length - m) = s.take tail.length := by
      rw [← List.take_add, show m + (tail.length - m) = tail.length by omega]
    have hrest : (tail.drop m).drop (s.drop m).length = tail.drop s.length := by
      rw [List.drop_drop, List.length_drop, show m + (s.length - m) = s.length by omega]
    have hleft : tail.length - m - (s.drop m).length = tail.length - s.length := by
      rw [List.length_drop]
      omega
    rw [List.append_assoc got, htake, hrest, hleft]

/-- With enough bytes in the stream the loop ends with the next of them in the
    buffer. -/
theorem runCommand_payload (table : HashTable R) (ending : StreamEnd) (p : PayloadRead)
    {got tail s : List Byte} (hbuf : p.payload = some (got ++ tail))
    (hlen : p.vLength + 2 = (got.length : ℤ) + tail.length) (hv : p.vLen = tail.length)
    {segs : List (List Byte)} (hcut : Cut segs s) (hs : tail.length ≤ s.length) :
    ∃ n, runCommand table n (payloadLoop table p, { segments := segs, ending := ending }) =
      (memuncachedSetEnd table { p with payload := some (got ++ s.take tail.length), vLen := 0 },
        { segments := dropBytes tail.length segs, ending := ending }) := by
  obtain ⟨n, hrun⟩ := runCommand_fill table ending p hbuf hlen hv hcut
  refine ⟨n, ?_⟩
  rw [hrun, List.drop_eq_nil_of_le hs, List.append_nil, Nat.sub_eq_zero_of_le hs,
    payloadLoop_of_nonpos table (le_refl _)]
  rfl

/-- The same in the handler. -/
theorem serve_payload (env : Env) (h : Handler R) (ending : StreamEnd) (p : PayloadRead)
    {got tail s : List Byte} (hbuf : p.payload = some (got ++ tail))
    (hlen : p.vLength + 2 = (got.length : ℤ) + tail.length) (hv : p.vLen = tail.length)
    {segs : List (List Byte)} (hcut : Cut segs s) (hs : tail.length ≤ s.length) :
    ∃ n, serve env n
        (h.resume (payloadLoop h.table p), { segments := segs, ending := ending }) =
      (h.resume (memuncachedSetEnd h.table
          { p with payload := some (got ++ s.take tail.length), vLen := 0 }),
        { segments := dropBytes tail.length segs, ending := ending }) := by
  obtain ⟨n, hn⟩ := runCommand_payload h.table ending p hbuf hlen hv hcut hs
  obtain ⟨m, hm⟩ := serve_runCommand env h n
    (payloadLoop h.table p, { segments := segs, ending := ending })
  exact ⟨m, by rw [hm, hn]⟩

/-- A stream with too few bytes never completes the payload: the loop waits, or
    a read error ends the command. -/
theorem runCommand_short (table : HashTable R) (ending : StreamEnd) (p : PayloadRead)
    {segs : List (List Byte)} {s : List Byte} (hcut : Cut segs s) (hs : (s.length : ℤ) < p.vLen)
    (n : ℕ) :
    (∃ p', (runCommand table n (.recv p, { segments := segs, ending := ending })).1 = .recv p') ∨
      (runCommand table n (.recv p, { segments := segs, ending := ending })).1 =
        .done ((p.writes ++ [replyServerError (ascii "Read failed.")]).map .reply) table true := by
  induction n generalizing p s segs with
  | zero => exact Or.inl ⟨p, rfl⟩
  | succ n ih =>
    rw [runCommand_add, runCommand_one]
    have hw : 0 < p.vLen.toNat := by omega
    -- an error ends the command, anything else leaves it waiting
    have hgo : ∀ p' segs' s', p'.writes = p.writes → Cut segs' s' → (s'.length : ℤ) < p'.vLen →
        ((∃ p'', (runCommand table n (payloadLoop table p',
            { segments := segs', ending := ending })).1 = .recv p'') ∨
          (runCommand table n (payloadLoop table p', { segments := segs', ending := ending })).1 =
            .done ((p.writes ++ [replyServerError (ascii "Read failed.")]).map .reply)
              table true) := by
      intro p' segs' s' hwrites hcut' hs'
      rw [payloadLoop_of_pos table (by omega), ← hwrites]
      exact ih p' hcut' hs'
    have herror : ∀ socket, (runCommand table n (payloadRecv table p .error, socket)).1 =
        .done ((p.writes ++ [replyServerError (ascii "Read failed.")]).map .reply) table true := by
      intro socket
      rw [runCommand_stopped table (by simp [payloadRecv])]
      rfl
    by_cases hsne : s = []
    · subst hsne
      have hnil := hcut.eq_nil
      subst hnil
      have hend : p.recv { segments := [], ending := ending } =
          (ending.result, { segments := [], ending := ending }) := by
        unfold PayloadRead.recv
        split_ifs
        · rw [Socket.recvNull, if_neg (by omega)]
          rfl
        · exact Socket.recv_end hw
      simp only [commandStep, hend]
      cases ending with
      | idle => exact ih p hcut hs
      | eof => exact hgo p [] [] rfl hcut hs
      | error => exact Or.inr (herror _)
    · by_cases hp : p.payload.isNone = true
      · obtain ⟨seg, rest, rfl⟩ := hcut.exists_cons hsne
        have hnull : p.recv { segments := seg :: rest, ending := ending } =
            (.error, { segments := seg :: rest, ending := ending }) := by
          rw [PayloadRead.recv, if_pos hp, Socket.recvNull, if_neg (by omega), if_neg (by simp)]
        simp only [commandStep, hnull]
        exact Or.inr (herror _)
      · obtain ⟨m, hm0, hm1, hm2, hrecv⟩ := @Socket.recv_data segs s ending hcut hsne _ hw
        have hdata : p.recv { segments := segs, ending := ending } =
            (.data (s.take m), { segments := dropBytes m segs, ending := ending }) := by
          rw [PayloadRead.recv, if_neg hp, hrecv]
        simp only [commandStep, hdata]
        refine hgo _ _ _ rfl (hcut.dropBytes m) ?_
        show ((s.drop m).length : ℤ) < p.vLen - (s.take m).length
        rw [List.length_drop, List.length_take, min_eq_left hm2]
        omega

end Payload

end Memuncached.Server
