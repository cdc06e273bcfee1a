import Memuncached.Server.Connection

/-!
# Runs of the handler

What holds of every run of the handler, whatever arrives.

* `serve_log_prefix`: the log only grows.
* `serve_log_cases`: of two moments of a run one is the earlier one, and its log
  a prefix of the other's.
* `serve_invariant`: a property that every step preserves holds throughout.
* `step_quiet`: a step that changes the table also replies.
-/

namespace Memuncached.Server

/-! ## Replies -/

/-- The replies in a log. -/
def repliesOf (log : List Event) : List (List Byte) :=
  log.filterMap fun e => match e with
    | .reply bytes => some bytes
    | _ => none

@[simp] theorem repliesOf_append (log log' : List Event) :
    repliesOf (log ++ log') = repliesOf log ++ repliesOf log' := List.filterMap_append

theorem repliesOf_prefix {log log' : List Event} (h : log <+: log') :
    repliesOf log <+: repliesOf log' := by
  obtain ⟨more, rfl⟩ := h
  exact ⟨repliesOf more, (repliesOf_append log more).symm⟩

@[simp] theorem repliesOf_map_reply (writes : List (List Byte)) :
    repliesOf (writes.map .reply) = writes := by
  induction writes with
  | nil => rfl
  | cons w writes ih => exact congrArg (w :: ·) ih

@[simp] theorem repliesOf_events (p : PayloadRead) : repliesOf p.events = [] := by
  unfold PayloadRead.events
  cases p.payload <;> rfl

section Handler

variable {R : Type}

/-- What follows a command does not depend on where the handler has been. -/
theorem resume_control (h : Handler R) (c : Control) (s : CommandState R) :
    Handler.resume { h with control := c } s = h.resume s := by
  cases s <;> rfl

theorem resume_log (h : Handler R) (s : CommandState R) : h.log <+: (h.resume s).log := by
  cases s with
  | done events table running => exact List.prefix_append _ _
  | recv p => exact List.prefix_rfl
  | fault => exact List.prefix_rfl

variable [CacheValueReal R]

/-! ## Dispatch -/

theorem dispatch_control (env : Env) (h : Handler R) (c : Control) (r : ReadLoop) (k : ℕ) :
    Handler.dispatch env { h with control := c } r k = h.dispatch env r k := by
  unfold Handler.dispatch
  dsimp only
  cases trimNewlines r.command (r.command.length - r.commandFreeLen).toNat with
  | none => rfl
  | some command =>
    dsimp only
    cases handleCommandCall command with
    | none => rfl
    | some result =>
      have hresume := resume_control { h with log := h.log ++ [.command (r.command.take
        ((r.command.length : ℤ) - r.commandFreeLen).toNat) result.1] } c
      exact hresume _

/-- A received line is dispatched to a call, or its scan leaves the block. -/
theorem dispatch_cases (env : Env) (h : Handler R) (r : ReadLoop) (k : ℕ) :
    h.dispatch env r k = { h with control := .fault } ∨
      ∃ received call mem, h.dispatch env r k =
        Handler.resume { h with log := h.log ++ [.command received call] }
          (runCall env h.table h.clientCount mem k call) := by
  unfold Handler.dispatch
  dsimp only
  cases trimNewlines r.command (r.command.length - r.commandFreeLen).toNat with
  | none => exact Or.inl rfl
  | some command =>
    dsimp only
    cases handleCommandCall command with
    | none => exact Or.inl rfl
    | some result => exact Or.inr ⟨_, result.1, result.2, rfl⟩

theorem dispatch_log (env : Env) (h : Handler R) (r : ReadLoop) (k : ℕ) :
    h.log <+: (h.dispatch env r k).log := by
  rcases dispatch_cases env h r k with heq | ⟨received, call, mem, heq⟩
  · rw [heq]
  · have hlog := resume_log { h with log := h.log ++ [.command received call] }
      (runCall env h.table h.clientCount mem k call)
    rw [heq]
    exact (List.prefix_append _ _).trans hlog

/-! ## Steps -/

theorem step_recvLine (env : Env) {h : Handler R} {r : ReadLoop} (hc : h.control = .recvLine r)
    (buffer : List Byte) :
    h.step env (.data buffer) =
      match readChunk env r buffer with
      | .more r => { h with control := .recvLine r }
      | .line r payloadChunkSize => h.dispatch env r payloadChunkSize
      | .reallocFailed =>
        Handler.loopTop
          { h with log := h.log ++ [.reply (replyServerError (ascii "Realloc failed."))] } := by
  cases hchunk : readChunk env r buffer <;> simp only [Handler.step, hc, hchunk]

theorem step_recvPayload (env : Env) {h : Handler R} {p : PayloadRead}
    (hc : h.control = .recvPayload p) (result : RecvResult) :
    h.step env result = h.resume (payloadRecv h.table p result) := by
  unfold Handler.step
  rw [hc]

theorem step_log (env : Env) (h : Handler R) (result : RecvResult) :
    h.log <+: (h.step env result).log := by
  unfold Handler.step
  split
  · split
    · split
      · exact List.prefix_rfl
      · exact dispatch_log env h _ _
      · exact List.prefix_append _ _
    · exact List.prefix_rfl
    · exact List.prefix_rfl
    · exact List.prefix_rfl
  · exact resume_log _ _
  · exact List.prefix_rfl
  · exact List.prefix_rfl

theorem serveStep_recvLine (env : Env) {h : Handler R} {r : ReadLoop}
    (hc : h.control = .recvLine r) (sock : Socket) :
    serveStep env (h, sock) =
      (h.step env (sock.recv connectionRecvLength).1, (sock.recv connectionRecvLength).2) := by
  unfold serveStep
  rw [hc]

/-- The handler does nothing, or makes one step on some result of `recv`. -/
theorem serveStep_cases (env : Env) (s : Handler R × Socket) :
    serveStep env s = s ∨ ∃ result, (serveStep env s).1 = s.1.step env result := by
  unfold serveStep
  split
  · exact Or.inr ⟨_, rfl⟩
  · exact Or.inr ⟨_, rfl⟩
  · exact Or.inl rfl
  · exact Or.inl rfl

/-! ## Runs -/

theorem serve_add (env : Env) (m n : ℕ) (s : Handler R × Socket) :
    serve env (m + n) s = serve env m (serve env n s) :=
  Function.iterate_add_apply _ m n s

theorem serve_one (env : Env) (s : Handler R × Socket) : serve env 1 s = serveStep env s := rfl

/-- What every step on every result preserves holds throughout a run. -/
theorem serve_invariant {env : Env} {P : Handler R → Prop}
    (hstep : ∀ h result, P h → P (h.step env result)) {s : Handler R × Socket} (h0 : P s.1)
    (n : ℕ) : P (serve env n s).1 := by
  induction n with
  | zero => exact h0
  | succ n ih =>
    rw [Nat.add_comm, serve_add, serve_one]
    rcases serveStep_cases env (serve env n s) with heq | ⟨result, heq⟩
    · rw [heq]
      exact ih
    · rw [heq]
      exact hstep _ _ ih

/-- The log only grows. -/
theorem serve_log_prefix (env : Env) (n : ℕ) (s : Handler R × Socket) :
    s.1.log <+: (serve env n s).1.log :=
  @serve_invariant R _ env (fun h => s.1.log <+: h.log)
    (fun h result hp => hp.trans (step_log env h result)) s List.prefix_rfl n

theorem serve_log_cases (env : Env) (m n : ℕ) (s : Handler R × Socket) :
    (serve env m s).1.log <+: (serve env n s).1.log ∨
      (serve env n s).1.log <+: (serve env m s).1.log := by
  rcases le_total m n with hle | hle
  · obtain ⟨d, rfl⟩ := Nat.exists_eq_add_of_le' hle
    exact Or.inl (by rw [serve_add]; exact serve_log_prefix env d _)
  · obtain ⟨d, rfl⟩ := Nat.exists_eq_add_of_le' hle
    exact Or.inr (by rw [serve_add]; exact serve_log_prefix env d _)

/-- The first entry a run adds to the log is the same at every moment. -/
theorem serve_log_first {env : Env} {m n : ℕ} {s : Handler R × Socket} {e e' : Event}
    {more more' : List Event} (hm : (serve env m s).1.log = s.1.log ++ e :: more)
    (hn : (serve env n s).1.log = s.1.log ++ e' :: more') : e = e' := by
  rcases serve_log_cases env m n s with hp | hp
  · rw [hm, hn, List.prefix_append_right_inj, List.cons_prefix_cons] at hp
    exact hp.1
  · rw [hm, hn, List.prefix_append_right_inj, List.cons_prefix_cons] at hp
    exact hp.1.symm

/-- What is in the log at one moment is there at every later one. -/
theorem serve_log_later {env : Env} {n : ℕ} {s : Handler R × Socket} {log : List Event}
    (hn : (serve env n s).1.log = log) (m : ℕ) : log <+: (serve env (m + n) s).1.log := by
  rw [serve_add, ← hn]
  exact serve_log_prefix env m _

/-- A handler that has left its loop stays there. -/
theorem serve_stopped (env : Env) {s : Handler R × Socket}
    (hc : s.1.control = .cleanup ∨ s.1.control = .fault) (n : ℕ) : serve env n s = s := by
  have hone : serveStep env s = s := by
    unfold serveStep
    rcases hc with hc | hc <;> rw [hc]
  exact Function.iterate_fixed hone n

/-- The stream is used up and the handler waits for a line, or has left its
    loop. -/
def Settled (s : Handler R × Socket) : Prop :=
  (s.1.control = .recvLine ReadLoop.init ∨ s.1.control = .cleanup) ∧ s.2.segments = []

/-- Nothing happens any more on a stream that is used up. -/
theorem serve_settled (env : Env) {s : Handler R × Socket} (hs : Settled s) (n : ℕ) :
    Settled (serve env n s) ∧ (serve env n s).1.log = s.1.log ∧
      (serve env n s).1.table = s.1.table := by
  induction n with
  | zero => exact ⟨hs, rfl, rfl⟩
  | succ n ih =>
    rw [Nat.add_comm, serve_add, serve_one]
    obtain ⟨⟨hc, hsegs⟩, hlog, htable⟩ := ih
    generalize serve env n s = s' at *
    obtain ⟨h, segs, ending⟩ := s'
    dsimp only at hc hsegs hlog htable
    subst hsegs
    rcases hc with hc | hc
    · rw [serveStep_recvLine env hc, Socket.recv_end (by decide)]
      have hloop : h.loopTop.control = .recvLine ReadLoop.init ∨
          h.loopTop.control = .cleanup := by
        unfold Handler.loopTop
        by_cases hrun : h.isThreadRunning = true
        · exact Or.inl (if_pos hrun)
        · exact Or.inr (if_neg hrun)
      unfold Handler.step
      rw [hc]
      cases ending with
      | idle => exact ⟨⟨Or.inl hc, rfl⟩, hlog, htable⟩
      | eof => exact ⟨⟨hloop, rfl⟩, hlog, htable⟩
      | error => exact ⟨⟨hloop, rfl⟩, hlog, htable⟩
    · have hstop := serve_stopped env (s := (h, Socket.mk [] ending)) (Or.inl hc) 1
      rw [serve_one] at hstop
      rw [hstop]
      exact ⟨⟨Or.inr hc, rfl⟩, hlog, htable⟩

/-! ## Steps that change the table -/

/-- A command that changes the table also replies. -/
def CommandState.Quiet (table : HashTable R) : CommandState R → Prop
  | .done events table' _ => table' = table ∨ repliesOf events ≠ []
  | .recv _ => True
  | .fault => True

omit [CacheValueReal R] in
theorem resume_quiet (h : Handler R) {s : CommandState R} (hs : s.Quiet h.table) :
    (h.resume s).table = h.table ∨
      (repliesOf h.log).length < (repliesOf (h.resume s).log).length := by
  cases s with
  | done events table' running =>
    rcases hs with htable | hreply
    · exact Or.inl htable
    · right
      show _ < (repliesOf (h.log ++ events)).length
      have hpos := List.length_pos_of_ne_nil hreply
      rw [repliesOf_append, List.length_append]
      omega
  | recv p => exact Or.inl rfl
  | fault => exact Or.inl rfl

theorem memuncachedSetEnd_eq (table : HashTable R) (p : PayloadRead) :
    memuncachedSetEnd table p =
      match (TableProg.exec (setTable p.key p.type p.vLength p.payload p.overwrite) table).1 with
      | none => .fault
      | some writes =>
        .done (p.events ++ (p.writes ++ writes).map .reply)
          (TableProg.exec (setTable p.key p.type p.vLength p.payload p.overwrite) table).2 true := rfl

theorem payloadLoop_quiet (table : HashTable R) (p : PayloadRead) :
    (payloadLoop table p).Quiet table := by
  unfold payloadLoop
  split_ifs
  · trivial
  · rw [memuncachedSetEnd_eq]
    rcases setTable_repliesOnce p.key p.type p.vLength p.payload p.overwrite table with
      h | ⟨reply, h⟩
    · rw [h]
      trivial
    · rw [h]
      right
      rw [repliesOf_append, repliesOf_events, repliesOf_map_reply]
      simp

theorem payloadRecv_quiet (table : HashTable R) (p : PayloadRead) (result : RecvResult) :
    (payloadRecv table p result).Quiet table := by
  cases result with
  | data bytes => exact payloadLoop_quiet table _
  | eof => exact payloadLoop_quiet table p
  | error => exact Or.inl rfl
  | block => trivial

theorem ofTable_eq (p : TableProg R (Option (List (List Byte)))) (table : HashTable R) :
    CommandState.ofTable p table =
      match (TableProg.exec p table).1 with
      | none => .fault
      | some writes => .done (writes.map .reply) (TableProg.exec p table).2 true := rfl

theorem ofTable_quiet {p : TableProg R (Option (List (List Byte)))} (hp : RepliesOnce p)
    (table : HashTable R) : (CommandState.ofTable p table).Quiet table := by
  rw [ofTable_eq]
  rcases hp table with h | ⟨reply, h⟩
  · rw [h]
    trivial
  · rw [h]
    right
    rw [repliesOf_map_reply]
    simp

theorem runCall_quiet (env : Env) (table : HashTable R) (clientCount : ℕ) (mem : List Byte)
    (k : ℕ) (call : Call) : (runCall env table clientCount mem k call).Quiet table := by
  cases call with
  | nothing => exact Or.inl rfl
  | badRequest message => exact Or.inl rfl
  | bye => exact Or.inl rfl
  | stt => exact Or.inl rfl
  | ver => exact Or.inl rfl
  | dec key offset initial => exact ofTable_quiet (memuncachedDec_repliesOnce key offset initial) table
  | inc key offset initial => exact ofTable_quiet (memuncachedInc_repliesOnce key offset initial) table
  | del key => exact ofTable_quiet (memuncachedDel_repliesOnce key) table
  | get key => exact ofTable_quiet (memuncachedGet_repliesOnce key) table
  | set key type length itr overwrite =>
    show (memuncachedSet env table key type length _ overwrite).Quiet table
    unfold memuncachedSet
    dsimp only
    by_cases hv : atoi length + 2 > intMax
    · rw [if_pos hv]
      trivial
    · rw [if_neg hv]
      cases copyChunk (calloc env (atoi length + 2)) (readMem env mem itr k) with
      | none => trivial
      | some payload => exact payloadLoop_quiet table _

theorem dispatch_quiet (env : Env) (h : Handler R) (r : ReadLoop) (k : ℕ) :
    (h.dispatch env r k).table = h.table ∨
      (repliesOf h.log).length < (repliesOf (h.dispatch env r k).log).length := by
  rcases dispatch_cases env h r k with heq | ⟨received, call, mem, heq⟩
  · rw [heq]
    exact Or.inl rfl
  · have hquiet := resume_quiet { h with log := h.log ++ [.command received call] }
      (runCall_quiet env h.table h.clientCount mem k call)
    rw [heq]
    simpa [repliesOf] using hquiet

/-- A step leaves the table as it is or adds a reply to the log. -/
theorem step_quiet (env : Env) (h : Handler R) (result : RecvResult) :
    (h.step env result).table = h.table ∨
      (repliesOf h.log).length < (repliesOf (h.step env result).log).length := by
  unfold Handler.step
  split
  · split
    · split
      · exact Or.inl rfl
      · exact dispatch_quiet env h _ _
      · exact Or.inl rfl
    · exact Or.inl rfl
    · exact Or.inl rfl
    · exact Or.inl rfl
  · exact resume_quiet h (payloadRecv_quiet h.table _ result)
  · exact Or.inl rfl
  · exact Or.inl rfl

end Handler

end Memuncached.Server
