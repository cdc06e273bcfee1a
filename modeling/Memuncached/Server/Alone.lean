import Memuncached.Server.Clients

/-!
# One client alone

With a single connection the server of `Server.Clients` is the handler of
`Server.Connection`: a command whose calls nothing comes between is the command
executed at once.

* `clients_alone`: between two commands the threaded server has replied what the
  handler has, and left the table as the handler has.
-/

namespace Memuncached.Server

open Interleave Transitions

variable {R : Type} [CacheValueReal R]

/-- `clients->count` is `clientCount` throughout. -/
def CountsClients (clientCount : ℕ) (_ : Clients R Unit) : ClientsAction Unit → Prop
  | .recv _ n => n = clientCount
  | .call _ => True

/-- The handler has come as far as the thread, or as far as the command that the
    thread is at, and will then have done the same. -/
inductive Alongside (clientCount : ℕ) (run : ℕ → Handler R × Socket) (s : Clients R Unit) : Prop
  | between {n : ℕ} (hcurrent : s.shared.current () = none)
      (hrun : run n = ((s.thread ()).handler s.shared.shared clientCount, s.sock ()))
  | within {n : ℕ} {p : TablePending R} {later : List Event} {writes : List (List Byte)}
      {table : HashTable R} (hcurrent : s.shared.current () = some p)
      (hcontrol : (s.thread ()).control = .table later writes p.cmd)
      (hrun : run n = ((s.thread ()).handler table clientCount, s.sock ()))
      (hrest : CallTree.run TableCall.exec p.rest s.shared.shared =
        TableProg.exec p.cmd.prog table)
  | fault {n : ℕ} (hcontrol : (s.thread ()).control = .fault) (hrun : (run n).1.control = .fault)

/-! ## A run -/

/-- A client alone that sends `INC a`. -/
def incAlone : Clients ℚ Unit :=
  Clients.initial (hashTableCreate ℚ 1 Nat.one_pos) fun _ => twoSockets false

def incAloneRun : List (ClientsAction Unit) := [.recv () 1, .call (), .call (), .call ()]

theorem incAlone_runs :
    ∃ s, Transitions.run (Clients.step Env.zero 1) incAlone incAloneRun = some s ∧
      (s.thread ()).control = .recvLine ReadLoop.init :=
  ⟨_, rfl, rfl⟩

theorem incAlone_counts :
    Along (Clients.step Env.zero 1) (CountsClients 1) incAlone incAloneRun :=
  ⟨rfl, trivial, trivial, trivial, trivial⟩

/-! ## Steps -/

section Alone

variable {env : Env} {clientCount size : ℕ} {start : Handler R × Socket} {s t : Clients R Unit}

theorem Alongside.recv {i : Unit}
    (h : Alongside clientCount (fun n => serve env n start) s)
    (hstep : s.step env size (.recv i clientCount) = some t) :
    Alongside clientCount (fun n => serve env n start) t := by
  obtain ⟨u, hu, rfl⟩ := Option.map_eq_some_iff.mp hstep
  cases h with
  | @between n hcurrent hrun =>
    refine .between (n := 1 + n) hcurrent ?_
    show serve env (1 + n) start = _
    rw [serve_add, hrun, serve_one]
    simp only [Function.update_self]
    exact recv_handler s.shared.shared clientCount hu
  | within hcurrent hcontrol hrun hrest =>
    simp only [Thread.recv, hcontrol] at hu
    cases hu
  | fault hcontrol hrun =>
    simp only [Thread.recv, hcontrol] at hu
    cases hu

/-- The command of a thread that makes its next call, run to its end from here. -/
theorem Alongside.acting {run : ℕ → Handler R × Socket} {later : List Event}
    {writes : List (List Byte)} {cmd : TableCommand} (h : Alongside clientCount run s)
    (hcontrol : (s.thread ()).control = .table later writes cmd) {p : TablePending R}
    (hp : (tableThreads R size).acting s.shared (s.tableAction () cmd) = some p) :
    p.cmd = cmd ∧ ∃ n table, run n = ((s.thread ()).handler table clientCount, s.sock ()) ∧
      CallTree.run TableCall.exec p.rest s.shared.shared = TableProg.exec cmd.prog table := by
  cases h with
  | @between n hcurrent hrun =>
    rw [Clients.tableAction, hcurrent] at hp
    obtain ⟨-, rfl⟩ := Threads.acting_start hp
    exact ⟨rfl, n, _, hrun, rfl⟩
  | @within n q _ _ table hcurrent hcontrol' hrun hrest =>
    rw [Clients.tableAction, hcurrent] at hp
    obtain rfl : q = p := Option.some.inj (hcurrent.symm.trans hp)
    obtain ⟨-, -, rfl⟩ : later = _ ∧ writes = _ ∧ cmd = q.cmd := by
      simpa using hcontrol.symm.trans hcontrol'
    exact ⟨rfl, n, table, hrun, hrest⟩
  | fault hcontrol' hrun => cases hcontrol.symm.trans hcontrol'

theorem Alongside.call {run : ℕ → Handler R × Socket} (h : Alongside clientCount run s)
    (hstep : s.step env size (.call ()) = some t) : Alongside clientCount run t := by
  obtain ⟨later, writes, cmd, shared, hcontrol, hshared, rfl⟩ := Clients.step_call hstep
  obtain ⟨p, hp, hcases⟩ := Threads.step_cases hshared
  obtain ⟨rfl, n, table, hrun, hrest⟩ := h.acting hcontrol hp
  rw [Clients.tableAction_client] at hcases
  have hadvanced := (Threads.run_advance TableCall.exec p.rest s.shared.shared).trans hrest
  have hthreads : advance (tableThreads R size).exec p.rest s.shared.shared =
      advance TableCall.exec p.rest s.shared.shared := rfl
  rw [hthreads] at hcases
  generalize advance TableCall.exec p.rest s.shared.shared = b at hcases hadvanced
  rcases hcases with rfl | ⟨reply, hreply, rfl⟩
  · have hcurrent : (s.shared.called () p b.1 b.2).current () = some { p with rest := b.1 } := by
      simp only [State.called, Function.update_self]
    have hafter : Clients.afterCall (s.shared.called () p b.1 b.2) () (s.thread ()) =
        s.thread () := by
      rw [Clients.afterCall, hcurrent]
    rw [hafter, Function.update_eq_self]
    exact .within hcurrent hcontrol hrun hadvanced
  · -- the command has ended as it would have when executed at once
    have hdone : ((reply, b.2) : Option (List (List Byte)) × HashTable R) =
        TableProg.exec p.cmd.prog table := by
      rw [← hadvanced, hreply]
      rfl
    have hafter : Clients.afterCall ((s.shared.called () p b.1 b.2).ended () p reply) ()
        (s.thread ()) = (s.thread ()).answered reply := by
      simp only [Clients.afterCall, State.ended, Function.update_self]
      rfl
    rw [hafter]
    cases reply with
    | none =>
      refine .fault (n := n) ?_ ?_
      · simp only [Function.update_self, Thread.answered, hcontrol]
      · rw [hrun]
        simp only [Thread.handler, hcontrol, Stop.finish, ← hdone]
        rfl
    | some replies =>
      refine .between (n := n) (by simp only [State.ended, Function.update_self]) ?_
      have hhandler := answered_handler table clientCount hcontrol (congrArg Prod.fst hdone.symm)
      rw [← hdone] at hhandler
      simp only [Function.update_self]
      exact hrun.trans (congrArg (·, s.sock ()) hhandler.symm)

theorem Alongside.step {a : ClientsAction Unit}
    (h : Alongside clientCount (fun n => serve env n start) s)
    (hcount : CountsClients clientCount s a) (hstep : s.step env size a = some t) :
    Alongside clientCount (fun n => serve env n start) t := by
  cases a with
  | recv i n =>
    obtain rfl : n = clientCount := hcount
    exact h.recv hstep
  | call i => exact h.call hstep

/-- A thread that is alone has faulted as the handler does, or has come as far as
    the handler in some number of steps: with nothing of a command left to do it has
    logged the same and left the same table and the same rest of the stream. -/
theorem clients_alone {table : HashTable R} {sock : Socket}
    (hs : Reaches (Clients.step env size) (CountsClients clientCount)
      (· = Clients.initial table fun _ => sock) s) :
    ((s.thread ()).control = .fault ∧
      ∃ n, (serve env n (Handler.start table clientCount, sock)).1.control = .fault) ∨
    ((∀ later writes cmd, (s.thread ()).control ≠ .table later writes cmd) →
      ∃ n h', serve env n (Handler.start table clientCount, sock) = (h', s.sock ()) ∧
        h'.log = (s.thread ()).log ∧ h'.table = s.shared.shared ∧
        h'.isThreadRunning = (s.thread ()).isThreadRunning) := by
  have halong : Alongside clientCount
      (fun n => serve env n (Handler.start table clientCount, sock)) s := by
    refine hs.invariant (fun u hu => ?_) fun u a v hu hok hstep => hu.step hok hstep
    rw [hu]
    exact .between (n := 0) rfl rfl
  cases halong with
  | @between n hcurrent hrun =>
    refine Or.inr fun hidle => ⟨n, _, hrun, ?_⟩
    cases hcontrol : (s.thread ()).control with
    | table later writes cmd => exact absurd hcontrol (hidle later writes cmd)
    | recvLine r => simp [Thread.handler, hcontrol]
    | recvPayload p => simp [Thread.handler, hcontrol]
    | cleanup => simp [Thread.handler, hcontrol]
    | fault => simp [Thread.handler, hcontrol]
  | within hcurrent hcontrol hrun hrest =>
    exact Or.inr fun hidle => absurd hcontrol (hidle _ _ _)
  | @fault n hcontrol hrun => exact Or.inl ⟨hcontrol, n, hrun⟩

/-- The handler has sent what the thread has. -/
theorem clients_alone_inc :
    ∃ s : Clients ℚ Unit,
      Transitions.run (Clients.step Env.zero 1) incAlone incAloneRun = some s ∧
      ∃ n h', serve Env.zero n (Handler.start (hashTableCreate ℚ 1 Nat.one_pos) 1,
          twoSockets false) = (h', s.sock ()) ∧
        h'.log = (s.thread ()).log ∧ h'.table = s.shared.shared ∧
        h'.isThreadRunning = (s.thread ()).isThreadRunning := by
  obtain ⟨s, hrun, hcontrol⟩ := incAlone_runs
  have hreaches : Reaches (Clients.step Env.zero 1) (CountsClients 1) (· = incAlone) s :=
    run_reaches (.init rfl) incAlone_counts hrun
  refine ⟨s, hrun, ?_⟩
  rcases clients_alone hreaches with ⟨hfault, -⟩ | halone
  · cases hcontrol.symm.trans hfault
  · apply halone
    intro later writes cmd htable
    cases hcontrol.symm.trans htable

end Alone

end Memuncached.Server
