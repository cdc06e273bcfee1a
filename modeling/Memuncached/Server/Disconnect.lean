import Memuncached.Server.Run

/-!
# A client that disconnects

The read loop of `handle_connection` on a stream whose peer has gone: its `recv`
returns 0 or -1.

* `AtEnd`: the handler waits for a line on such a stream.
* `not_stops`: from there on the handler calls `recv` again and again and never
  comes to its clean-up.
-/

namespace Memuncached.Server

section Disconnect

variable {R : Type} [CacheValueReal R]

/-- The `recv` of the read loop returns 0 or -1. -/
structure AtEnd (s : Handler R × Socket) : Prop where
  control : ∃ r, s.1.control = .recvLine r
  segments : s.2.segments = []
  ending : s.2.ending ≠ .idle

/-- The handler makes the call of `recv` it is at, then no other one, and is in
    its clean-up. -/
def Stops (env : Env) (s : Handler R × Socket) : Prop := (serve env 1 s).1.control = .cleanup

/-- A handler that waits for a line has not been told to stop. -/
def RunsInLoop (h : Handler R) : Prop := ∀ r, h.control = .recvLine r → h.isThreadRunning = true

omit [CacheValueReal R] in
theorem loopTop_runsInLoop (h : Handler R) : RunsInLoop h.loopTop := by
  intro r hr
  unfold Handler.loopTop at hr ⊢
  by_contra hrun
  dsimp only at hr hrun
  rw [if_neg hrun] at hr
  cases hr

omit [CacheValueReal R] in
theorem resume_runsInLoop (h : Handler R) (s : CommandState R) : RunsInLoop (h.resume s) := by
  cases s with
  | done events table running => exact loopTop_runsInLoop _
  | recv p => simp [RunsInLoop, Handler.resume]
  | fault => simp [RunsInLoop, Handler.resume]

theorem step_runsInLoop (env : Env) (h : Handler R) (result : RecvResult) (hrun : RunsInLoop h) :
    RunsInLoop (h.step env result) := by
  unfold Handler.step
  split
  · rename_i r hc
    split
    · split
      · exact fun _ _ => hrun r hc
      · rename_i r' k _
        rcases dispatch_cases env h r' k with heq | ⟨received, call, mem, heq⟩
        · rw [heq]
          simp [RunsInLoop]
        · rw [heq]
          exact resume_runsInLoop _ _
      · exact loopTop_runsInLoop _
    · exact loopTop_runsInLoop _
    · exact loopTop_runsInLoop _
    · exact hrun
  · exact resume_runsInLoop _ _
  · exact hrun
  · exact hrun

/-- At the end of the stream the handler goes round its outer loop. -/
theorem serve_atEnd (env : Env) {s : Handler R × Socket} (hs : AtEnd s) (hrun : RunsInLoop s.1) :
    AtEnd (serve env 1 s) := by
  obtain ⟨h, segs, ending⟩ := s
  obtain ⟨⟨r, hc⟩, hsegs, hending⟩ := hs
  dsimp only at hc hsegs hending
  subst hsegs
  have hloop : ∃ r, h.loopTop.control = .recvLine r := by
    refine ⟨ReadLoop.init, ?_⟩
    unfold Handler.loopTop
    exact if_pos (hrun r hc)
  rw [serve_one, serveStep_recvLine env hc, Socket.recv_end (by decide)]
  refine ⟨?_, rfl, hending⟩
  unfold Handler.step
  rw [hc]
  cases ending with
  | idle => exact absurd rfl hending
  | eof => exact hloop
  | error => exact hloop

/-- Once `recv` has returned 0 or -1 in the read loop the handler does so for
    ever. -/
theorem serve_atEnd_forever (env : Env) {s : Handler R × Socket} (hs : AtEnd s)
    (hrun : RunsInLoop s.1) (n : ℕ) : AtEnd (serve env n s) := by
  induction n with
  | zero => exact hs
  | succ n ih =>
    rw [Nat.add_comm, serve_add]
    apply serve_atEnd env ih
    exact serve_invariant (fun h result => step_runsInLoop env h result) hrun n

omit [CacheValueReal R] in
theorem start_runsInLoop (table : HashTable R) (clientCount : ℕ) :
    RunsInLoop (Handler.start table clientCount) := fun _ _ => rfl

/-- Whatever the client has sent before, a handler whose `recv` in the read loop
    returns 0 or -1 does not stop, then or at any later moment. -/
theorem not_stops (env : Env) (table : HashTable R) (clientCount : ℕ) (segs : List (List Byte))
    (ending : StreamEnd) (n : ℕ)
    (hend : AtEnd (serve env n
      (Handler.start table clientCount, { segments := segs, ending := ending }))) (m : ℕ) :
    ¬ Stops env (serve env (m + n)
      (Handler.start table clientCount, { segments := segs, ending := ending })) := by
  intro hstops
  have hrun : RunsInLoop (serve env n
      (Handler.start table clientCount, { segments := segs, ending := ending })).1 :=
    serve_invariant (fun h result => step_runsInLoop env h result)
      (start_runsInLoop table clientCount) n
  obtain ⟨⟨r, hr⟩, -, -⟩ := serve_atEnd_forever env hend hrun (1 + m)
  rw [Stops, ← serve_add, ← Nat.add_assoc, serve_add] at hstops
  rw [hstops] at hr
  cases hr

end Disconnect

/-- A client that closes the connection in the middle of a line. -/
def partOfLine : Socket where
  segments := [ascii "GET"]
  ending := .eof

theorem atEnd_partOfLine :
    AtEnd (serve Env.zero 1 (Handler.start (hashTableCreate ℚ 1 Nat.one_pos) 1, partOfLine)) :=
  ⟨⟨_, rfl⟩, rfl, by decide⟩

theorem not_stops_partOfLine :
    ¬ Stops Env.zero
      (serve Env.zero (1 + 1) (Handler.start (hashTableCreate ℚ 1 Nat.one_pos) 1, partOfLine)) :=
  not_stops Env.zero (hashTableCreate ℚ 1 Nat.one_pos) 1 [ascii "GET"] .eof 1 atEnd_partOfLine 1

/-- The handler of that client goes on. -/
theorem partOfLine_goes_on :
    ¬ ∀ n, AtEnd (serve Env.zero n (Handler.start (hashTableCreate ℚ 1 Nat.one_pos) 1, partOfLine)) →
      Stops Env.zero
        (serve Env.zero n (Handler.start (hashTableCreate ℚ 1 Nat.one_pos) 1, partOfLine)) := by
  intro h
  have hstops : Control.recvLine ReadLoop.init = .cleanup := h 1 atEnd_partOfLine
  cases hstops

end Memuncached.Server
