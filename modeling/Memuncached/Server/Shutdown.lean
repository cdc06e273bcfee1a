import Memuncached.Server.Registry

/-!
# Shutdown

SIGINT, the locked loop of `main` that releases every client (server.c, lines
111-126) and the handler threads of the registered clients (connection.c, lines
31-133), interleaved at every test of `is_running`, every use of a record and
every hand-over of the lock.

* `shutdownStep_keeps`: the invariant is kept by every step that meets
  `ReleasesIdle`.
* `shutdown_safe`: in a run of such steps no record is freed twice, none is used
  behind its `free`, and `clients` is empty when the loop of `main` has ended.
* `shutdown_frees_twice`: without the condition a record is freed twice.
-/

namespace Memuncached.Server

open Transitions SwapRemove

/-! ## State -/

/-- Where a handler is in `handle_connection`. -/
inductive HandlerPhase where
  /-- Before the test of `is_running` of the outer loop. -/
  | top
  /-- Before its test of `is_thread_running`. -/
  | flag
  /-- Before the condition of the inner loop. -/
  | inner (isEnd : Bool)
  /-- Past the tests, before `recv` reads `socket_fd`. -/
  | receiving
  | inRecv
  /-- In `handle_command` or a reply, with the record still to be used. -/
  | command
  /-- Behind the last use of the record there. -/
  | replied
  /-- Before the test of `is_running` that guards the clean-up. -/
  | final
  /-- In `vector_timed_lock`. -/
  | waiting
  /-- With the lock, at the `i`-th client. -/
  | searching (i : ℕ)
  | searched
  /-- The record is freed, the lock not yet given back. -/
  | cleaned
  | ended
  deriving DecidableEq, Repr

namespace HandlerPhase

@[simp] def isLocked : HandlerPhase → Bool
  | searching _ | searched | cleaned => true
  | _ => false

/-- With `is_running` false the handler returns from here without a use of its
    record, unless `recv` brings a line or the lock is granted. -/
@[simp] def isIdle : HandlerPhase → Bool
  | top | inner false | inRecv | replied | final | waiting | ended => true
  | _ => false

/-- The handler has freed its record. -/
@[simp] def isOver : HandlerPhase → Bool
  | cleaned | ended => true
  | _ => false

end HandlerPhase

/-- A client: its record and where its handler is. -/
structure Client where
  threadId : ℕ
  isThreadRunning : Bool
  freed : Bool
  phase : HandlerPhase
  deriving DecidableEq, Repr

/-- Where `main` is. -/
inductive MainPhase where
  | looping
  /-- Out of the accept loop, before `vector_lock`. -/
  | closing
  /-- With the lock and `n` clients to go. -/
  | releasing (n : ℕ)
  /-- The client `c` at place `n` is shut down and closed. -/
  | closed (n c : ℕ)
  /-- It is removed as well. -/
  | removed (n c : ℕ)
  /-- Behind `vector_unlock`. -/
  | done
  deriving DecidableEq, Repr

@[simp] def MainPhase.isLocked : MainPhase → Bool
  | releasing _ | closed _ _ | removed _ _ => true
  | _ => false

/-- Who holds the lock. -/
inductive LockHolder where
  | main
  | handler (c : ℕ)
  deriving DecidableEq, Repr

/-- The server at its end. `freedTwice` and `usedFreed` record what has gone wrong. -/
structure ServerState where
  isRunning : Bool
  main : MainPhase
  lock : Option LockHolder
  clients : Vector ℕ
  record : ℕ → Client
  freedTwice : Bool
  usedFreed : Bool
  undefined : Bool

/-- What a `recv` of the read loop leads to: a chunk with a newline or without
    one, a chunk there is no memory for, or 0 or -1. -/
inductive RecvOutcome where
  | line | part | noMemory | closed
  deriving DecidableEq, Repr

/-- A step of the signal handler, of `main` or of the handler of client `c`. -/
inductive ShutdownAction where
  | sigint
  | mainTest
  | mainLock
  | mainClose
  | mainRemove
  | mainFree
  | mainUnlock
  | test (c : ℕ)
  | readFlag (c : ℕ) (junk : Bool)
  | callRecv (c : ℕ)
  | recvReturns (c : ℕ) (outcome : RecvOutcome)
  | use (c : ℕ) (bye last : Bool)
  | handled (c : ℕ)
  | timeout (c : ℕ)
  | acquire (c : ℕ)
  | compare (c : ℕ) (junk : Bool)
  | release (c : ℕ)
  | unlock (c : ℕ)

/-- `n` registered clients with thread ids of their own, each handler before the
    outer loop, and `main` in the accept loop. -/
structure ServerState.Serving (s : ServerState) (n : ℕ) : Prop where
  isRunning : s.isRunning = true
  main : s.main = .looping
  lock : s.lock = none
  clients : s.clients.Holds (List.range n)
  handlers : ∀ c < n, (s.record c).phase = .top ∧ (s.record c).freed = false
  noThread : ∀ c, n ≤ c → (s.record c).phase = .ended
  distinct : ∀ c < n, ∀ d < n, (s.record c).threadId = (s.record d).threadId → c = d
  freedTwice : s.freedTwice = false
  usedFreed : s.usedFreed = false
  defined : s.undefined = false

/-! ## Steps -/

/-- The state with client `c` changed. -/
def ServerState.set (s : ServerState) (c : ℕ) (f : Client → Client) : ServerState :=
  { s with record := Function.update s.record c (f (s.record c)) }

/-- A use of the record of `c`. -/
def ServerState.use (s : ServerState) (c : ℕ) : ServerState :=
  { s with usedFreed := s.usedFreed || (s.record c).freed }

/-- `free` of the record of `c`. -/
def ServerState.free (s : ServerState) (c : ℕ) : ServerState :=
  { s.set c fun r => { r with freed := true } with
    freedTwice := s.freedTwice || (s.record c).freed }

/-- The state with the handler of `c` at `phase`. -/
def ServerState.goto (s : ServerState) (c : ℕ) (phase : HandlerPhase) : ServerState :=
  s.set c fun r => { r with phase := phase }

/-- The comparison of two thread ids. Freed records hold anything. -/
def ServerState.sameThread (s : ServerState) (c d : ℕ) (junk : Bool) : Bool :=
  if (s.record c).freed || (s.record d).freed then junk
  else (s.record d).threadId == (s.record c).threadId

/-- The steps of `main` and SIGINT (server.c, lines 79, 113-126 and 142). -/
def mainStep (s : ServerState) : ShutdownAction → Option ServerState
  | .sigint => some { s with isRunning := false }
  | .mainTest =>
    if s.main = .looping then some (if s.isRunning then s else { s with main := .closing })
    else none
  | .mainLock =>
    if s.main = .closing ∧ s.lock = none then
      some { s with main := .releasing s.clients.count, lock := some .main }
    else none
  | .mainClose =>
    match s.main with
    | .releasing (n + 1) =>
      match vectorAtUnsafe s.clients n with
      | some (some c) => some { s.use c with main := .closed n c }
      | _ => some { s with undefined := true }
    | _ => none
  | .mainRemove =>
    match s.main with
    | .closed n c =>
      match vectorRemoveUnsafe s.clients n with
      | some (_, clients) => some { s with main := .removed n c, clients := clients }
      | none => some { s with undefined := true }
    | _ => none
  | .mainFree =>
    match s.main with
    | .removed n c => some { s.free c with main := .releasing n }
    | _ => none
  | .mainUnlock =>
    if s.main = .releasing 0 then some { s with main := .done, lock := none } else none
  | _ => none

/-- A test of `is_running`, with what `&&` tests next (connection.c, lines 31, 37
    and 85, and 117). -/
def testRunning (isRunning : Bool) : HandlerPhase → Option HandlerPhase
  | .top => some (if isRunning then .flag else .final)
  | .inner isEnd =>
    some (if isRunning && !isEnd then .receiving else if isEnd then .command else .top)
  | .final => some (if isRunning then .waiting else .ended)
  | _ => none

/-- Where the read loop goes with the result of `recv` (connection.c, lines 37-83). -/
def RecvOutcome.phase : RecvOutcome → HandlerPhase
  | .line => .inner true
  | .part => .inner false
  | .noMemory => .command
  | .closed => .top

/-- The steps of the handler threads. -/
def handlerStep (s : ServerState) : ShutdownAction → Option ServerState
  | .test c => (testRunning s.isRunning (s.record c).phase).map (s.goto c)
  | .readFlag c junk =>
    if (s.record c).phase = .flag then
      let flag := if (s.record c).freed then junk else (s.record c).isThreadRunning
      some ((s.use c).goto c (if flag then .inner false else .final))
    else none
  | .callRecv c =>
    if (s.record c).phase = .receiving then some ((s.use c).goto c .inRecv) else none
  | .recvReturns c outcome =>
    if (s.record c).phase = .inRecv then some (s.goto c outcome.phase) else none
  -- BYE writes `is_thread_running`
  | .use c bye last =>
    if (s.record c).phase = .command then
      some ((s.use c).set c fun r =>
        { r with
          isThreadRunning := r.isThreadRunning && !bye
          phase := if last then .replied else .command })
    else none
  | .handled c => if (s.record c).phase = .replied then some (s.goto c .top) else none
  | .timeout c => if (s.record c).phase = .waiting then some (s.goto c .ended) else none
  | .acquire c =>
    if (s.record c).phase = .waiting ∧ s.lock = none then
      some { s.goto c (.searching 0) with lock := some (.handler c) }
    else none
  | .compare c junk =>
    match (s.record c).phase with
    | .searching i =>
      match searchTurn s.clients i fun d => s.sameThread c d junk with
      | .over => some (s.goto c .searched)
      | .next d => some (((s.use c).use d).goto c (.searching (i + 1)))
      | .found d _ clients =>
        some { ((s.use c).use d).goto c .searched with clients := clients }
      | .undefined => some { s with undefined := true }
    | _ => none
  -- `close(client->socket_fd)` and `free(client)`
  | .release c =>
    if (s.record c).phase = .searched then some (((s.use c).free c).goto c .cleaned) else none
  | .unlock c =>
    if (s.record c).phase = .cleaned then some { s.goto c .ended with lock := none } else none
  | _ => none

def shutdownStep (s : ServerState) (a : ShutdownAction) : Option ServerState :=
  (mainStep s a).or (handlerStep s a)

/-! ## What shutdown promises -/

/-- No record is freed twice or used behind its `free`, and the loop of `main`
    leaves no client. -/
structure ServerState.Safe (s : ServerState) : Prop where
  defined : s.undefined = false
  freedTwice : s.freedTwice = false
  usedFreed : s.usedFreed = false
  empty : s.main = .done → s.clients.count = 0

/-- The condition on a step: `main` frees a record only while its handler is at a
    test of `is_running`, in `recv`, in the timed lock or at its end, and
    afterwards `recv` brings the handler no line and the lock is not granted. -/
def ReleasesIdle (s : ServerState) : ShutdownAction → Prop
  | .mainFree => ∀ n c, s.main = .removed n c → (s.record c).phase.isIdle = true
  | .recvReturns c outcome => (s.record c).freed = true → outcome = .part ∨ outcome = .closed
  | .acquire c => (s.record c).freed = false
  | _ => True

/-- The states of the runs from `n` registered clients whose steps meet `ok`. -/
def ShutdownReaches (ok : ServerState → ShutdownAction → Prop) (n : ℕ) : ServerState → Prop :=
  Reaches shutdownStep ok fun s => s.Serving n

/-! ## The invariant -/

/-- Where `main` is with the records `l` in `clients`. -/
def MainPhase.Fits (l : List ℕ) (record : ℕ → Client) : MainPhase → Prop
  | looping | closing => True
  | releasing k => l.length = k
  | closed k c => l.length = k + 1 ∧ l[k]? = some c
  | removed k c => l.length = k ∧ c ∉ l ∧ (record c).freed = false
  | done => l = []

/-- The invariant of client `c` out of `n`, `l` being the records in `clients`. -/
structure Client.Fits (n : ℕ) (l : List ℕ) (isRunning : Bool) (main : MainPhase)
    (lock : Option LockHolder) (c : ℕ) (r : Client) : Prop where
  noThread : n ≤ c → r.phase = .ended
  freed : r.freed = true → r.phase.isOver = true ∨ isRunning = false ∧ r.phase.isIdle = true
  unfreed : c ∈ l → r.freed = false ∧ r.phase ≠ .searched
  mem : r.freed = false → r.phase ≠ .ended → r.phase ≠ .searched →
    (∀ k, main ≠ .removed k c) → c ∈ l
  lock : lock = some (.handler c) ↔ r.phase.isLocked = true
  search : ∀ i, r.phase = .searching i → ∀ j < i, l[j]? ≠ some c

/-- The invariant of `n` clients, `l` being the records in `clients`. -/
structure ServerState.Inv (s : ServerState) (n : ℕ) (l : List ℕ) : Prop where
  defined : s.undefined = false
  freedTwice : s.freedTwice = false
  usedFreed : s.usedFreed = false
  holds : s.clients.Holds l
  nodup : l.Nodup
  lt : ∀ c ∈ l, c < n
  distinct : ∀ c < n, ∀ d < n, (s.record c).threadId = (s.record d).threadId → c = d
  client : ∀ c, (s.record c).Fits n l s.isRunning s.main s.lock c
  lockMain : s.lock = some .main ↔ s.main.isLocked = true
  stopped : s.main ≠ .looping → s.isRunning = false
  main : s.main.Fits l s.record

section Steps

variable {s : ServerState} {n : ℕ} {l : List ℕ}

theorem ServerState.use_eq (hused : s.usedFreed = false) {c : ℕ}
    (hc : (s.record c).freed = false) : s.use c = s := by
  rw [ServerState.use, hused, hc, Bool.or_self, ← hused]

theorem ServerState.free_goto {c : ℕ} (hc : (s.record c).freed = false) (phase : HandlerPhase) :
    (s.free c).goto c phase = s.set c fun r => { r with freed := true, phase := phase } := by
  simp only [ServerState.free, ServerState.goto, ServerState.set, hc, Bool.or_false,
    Function.update_self, Function.update_idem]

theorem ServerState.Inv.lt_of_phase (h : s.Inv n l) {c : ℕ} (hc : (s.record c).phase ≠ .ended) :
    c < n := by
  by_contra hle
  exact hc ((h.client c).noThread (by omega))

/-- A handler that is about to use its record has one. -/
theorem ServerState.Inv.not_freed (h : s.Inv n l) {c : ℕ}
    (hover : (s.record c).phase.isOver = false) (hidle : (s.record c).phase.isIdle = false) :
    (s.record c).freed = false := by
  rw [← Bool.not_eq_true]
  intro hfreed
  rcases (h.client c).freed hfreed with hc | ⟨-, hc⟩
  · rw [hover] at hc
    exact Bool.false_ne_true hc
  · rw [hidle] at hc
    exact Bool.false_ne_true hc

/-- What holds of the changed client and of the others holds of all. -/
theorem forall_update {p : ℕ → Client → Prop} {record : ℕ → Client} {c : ℕ} {r : Client}
    (hother : ∀ d, d ≠ c → p d (record d)) (hc : p c r) :
    ∀ d, p d (Function.update record c r d) := by
  intro d
  by_cases hd : d = c
  · rw [hd, Function.update_self]
    exact hc
  · rw [Function.update_of_ne hd]
    exact hother d hd

theorem ServerState.Inv.distinct_update (h : s.Inv n l) {c : ℕ} {r : Client}
    (hthread : r.threadId = (s.record c).threadId) :
    ∀ d < n, ∀ e < n, (Function.update s.record c r d).threadId =
      (Function.update s.record c r e).threadId → d = e := by
  have heq : ∀ d, (Function.update s.record c r d).threadId = (s.record d).threadId :=
    forall_update (p := fun d r => r.threadId = (s.record d).threadId) (fun _ _ => rfl) hthread
  intro d hd e he hde
  rw [heq, heq] at hde
  exact h.distinct d hd e he hde

theorem MainPhase.Fits.congr {record record' : ℕ → Client} {main : MainPhase}
    (h : main.Fits l record) (hfreed : ∀ d, (record' d).freed = (record d).freed) :
    main.Fits l record' := by
  cases main with
  | removed k d => exact ⟨h.1, h.2.1, (hfreed d).trans h.2.2⟩
  | _ => exact h

theorem freed_update {record : ℕ → Client} {c : ℕ} {r : Client}
    (hr : r.freed = (record c).freed) :
    ∀ d, (Function.update record c r d).freed = (record d).freed :=
  forall_update (p := fun d r => r.freed = (record d).freed) (fun _ _ => rfl) hr

/-- A step of the handler of `c`: what is left to show when only its client, the
    lock and `clients` change. -/
theorem ServerState.Inv.replace (h : s.Inv n l) {c : ℕ} {r : Client} {lock : Option LockHolder}
    {clients : Vector ℕ} {l' : List ℕ} (hthread : r.threadId = (s.record c).threadId)
    (hholds : clients.Holds l') (hnodup : l'.Nodup) (hlt : c < n)
    (hother : ∀ d, d ≠ c → (d ∈ l' ↔ d ∈ l)) (hown : r.Fits n l' s.isRunning s.main lock c)
    (hlock : ∀ d, d ≠ c → (lock = some (.handler d) ↔ s.lock = some (.handler d)))
    (hsearch : ∀ d, d ≠ c → ∀ i, (s.record d).phase = .searching i → ∀ j < i, l'[j]? ≠ some d)
    (hlockMain : lock = some .main ↔ s.lock = some .main)
    (hmain : s.main.Fits l' (Function.update s.record c r)) :
    ServerState.Inv
      { s with record := Function.update s.record c r, lock := lock, clients := clients } n l' := by
  refine ⟨h.defined, h.freedTwice, h.usedFreed, hholds, hnodup, ?_, h.distinct_update hthread,
    forall_update ?_ hown, hlockMain.trans h.lockMain, h.stopped, hmain⟩
  · intro d hd
    by_cases hdc : d = c
    · rw [hdc]
      exact hlt
    · exact h.lt d ((hother d hdc).mp hd)
  · intro d hd
    have hfits := h.client d
    refine ⟨hfits.noThread, hfits.freed, ?_, ?_, (hlock d hd).trans hfits.lock, hsearch d hd⟩
    · rw [hother d hd]
      exact hfits.unfreed
    · rw [hother d hd]
      exact hfits.mem

/-- A step of the handler of `c` that leaves `clients` alone. -/
theorem ServerState.Inv.goto (h : s.Inv n l) {c : ℕ} {r : Client} {lock : Option LockHolder}
    (hthread : r.threadId = (s.record c).threadId) (hended : (s.record c).phase ≠ .ended)
    (hown : r.Fits n l s.isRunning s.main lock c)
    (hlock : ∀ d, d ≠ c → (lock = some (.handler d) ↔ s.lock = some (.handler d)))
    (hlockMain : lock = some .main ↔ s.lock = some .main)
    (hfreed : r.freed = (s.record c).freed ∨ s.main.isLocked = false) :
    ServerState.Inv { s with record := Function.update s.record c r, lock := lock } n l := by
  refine h.replace hthread h.holds h.nodup (h.lt_of_phase hended) (fun _ _ => Iff.rfl) hown hlock
    (fun d _ => (h.client d).search) hlockMain ?_
  rcases hfreed with hfreed | hunlocked
  · exact h.main.congr (freed_update hfreed)
  · have hmain := h.main
    revert hmain hunlocked
    cases s.main with
    | removed k d => simp
    | _ => exact fun _ => id

/-- A step of the handler of `c` that neither takes nor gives back the lock. -/
theorem ServerState.Inv.move (h : s.Inv n l) {c : ℕ} {r : Client}
    (hthread : r.threadId = (s.record c).threadId) (hfreed : r.freed = (s.record c).freed)
    (hended : (s.record c).phase ≠ .ended) (hold : (s.record c).phase.isLocked = false)
    (hnew : r.phase.isLocked = false)
    (hidle : r.freed = true →
      r.phase.isOver = true ∨ s.isRunning = false ∧ r.phase.isIdle = true) :
    ServerState.Inv { s with record := Function.update s.record c r } n l := by
  have hsearched : ∀ {p : HandlerPhase}, p.isLocked = false → p ≠ .searched := by
    rintro p hp rfl
    exact absurd hp (by simp)
  have hc := h.client c
  refine h.goto hthread hended ⟨?_, hidle, ?_, ?_, ?_, ?_⟩ (fun _ _ => Iff.rfl) Iff.rfl
    (Or.inl hfreed)
  · intro hle
    exact absurd (hc.noThread hle) hended
  · intro hmem
    exact ⟨hfreed.trans (hc.unfreed hmem).1, hsearched hnew⟩
  · intro hr _ _ hmain
    exact hc.mem (hfreed ▸ hr) hended (hsearched hold) hmain
  · rw [hc.lock, hold, hnew]
  · intro i hi
    rw [hi] at hnew
    exact absurd hnew (by simp)

/-! ## Handlers outside of the lock -/

/-- A test is made outside of the lock, and it leads an idle handler to its end
    when the server does not run. -/
theorem testRunning_spec {isRunning : Bool} {p q : HandlerPhase}
    (h : testRunning isRunning p = some q) :
    p ≠ .ended ∧ p.isOver = false ∧ p.isLocked = false ∧ q.isLocked = false ∧
      (isRunning = false → p.isIdle = true → q.isOver = true ∨ q.isIdle = true) := by
  unfold testRunning at h
  split at h
  case h_1 =>
    injection h with h
    subst h
    cases isRunning <;> simp
  case h_2 isEnd =>
    injection h with h
    subst h
    cases isRunning <;> cases isEnd <;> simp
  case h_3 =>
    injection h with h
    subst h
    cases isRunning <;> simp
  case h_4 => simp at h

theorem test_keeps (h : s.Inv n l) {c : ℕ} {t : ServerState}
    (hstep : handlerStep s (.test c) = some t) : t.Inv n l := by
  obtain ⟨phase, hphase, rfl⟩ := Option.map_eq_some_iff.mp hstep
  obtain ⟨hended, hover, hold, hnew, hidle⟩ := testRunning_spec hphase
  refine h.move rfl rfl hended hold hnew fun hfreed => ?_
  rcases (h.client c).freed hfreed with hc | ⟨hrunning, hc⟩
  · rw [hover] at hc
    exact absurd hc Bool.false_ne_true
  · rcases hidle hrunning hc with hq | hq
    · exact Or.inl hq
    · exact Or.inr ⟨hrunning, hq⟩

theorem readFlag_keeps (h : s.Inv n l) {c : ℕ} {junk : Bool} {t : ServerState}
    (hstep : handlerStep s (.readFlag c junk) = some t) : t.Inv n l := by
  obtain ⟨hphase, ⟨⟩⟩ := Option.ite_none_right_eq_some.mp hstep
  have hfreed : (s.record c).freed = false := h.not_freed (by simp [hphase]) (by simp [hphase])
  rw [ServerState.use_eq h.usedFreed hfreed]
  apply h.move
  · rfl
  · rfl
  · simp [hphase]
  · simp [hphase]
  · split_ifs <;> rfl
  · intro hr
    exact absurd (hfreed.symm.trans hr) Bool.false_ne_true

theorem callRecv_keeps (h : s.Inv n l) {c : ℕ} {t : ServerState}
    (hstep : handlerStep s (.callRecv c) = some t) : t.Inv n l := by
  obtain ⟨hphase, ⟨⟩⟩ := Option.ite_none_right_eq_some.mp hstep
  have hfreed : (s.record c).freed = false := h.not_freed (by simp [hphase]) (by simp [hphase])
  rw [ServerState.use_eq h.usedFreed hfreed]
  apply h.move
  · rfl
  · rfl
  · simp [hphase]
  · simp [hphase]
  · rfl
  · intro hr
    exact absurd (hfreed.symm.trans hr) Bool.false_ne_true

theorem recvReturns_keeps (h : s.Inv n l) {c : ℕ} {outcome : RecvOutcome}
    (hok : ReleasesIdle s (.recvReturns c outcome)) {t : ServerState}
    (hstep : handlerStep s (.recvReturns c outcome) = some t) : t.Inv n l := by
  obtain ⟨hphase, ⟨⟩⟩ := Option.ite_none_right_eq_some.mp hstep
  apply h.move
  · rfl
  · rfl
  · simp [hphase]
  · simp [hphase]
  · cases outcome <;> rfl
  · intro hr
    rcases (h.client c).freed hr with hc | ⟨hrunning, -⟩
    · simp [hphase] at hc
    · rcases hok hr with rfl | rfl
      · exact Or.inr ⟨hrunning, rfl⟩
      · exact Or.inr ⟨hrunning, rfl⟩

theorem use_keeps (h : s.Inv n l) {c : ℕ} {bye last : Bool} {t : ServerState}
    (hstep : handlerStep s (.use c bye last) = some t) : t.Inv n l := by
  obtain ⟨hphase, ⟨⟩⟩ := Option.ite_none_right_eq_some.mp hstep
  have hfreed : (s.record c).freed = false := h.not_freed (by simp [hphase]) (by simp [hphase])
  rw [ServerState.use_eq h.usedFreed hfreed]
  apply h.move
  · rfl
  · rfl
  · simp [hphase]
  · simp [hphase]
  · cases last <;> rfl
  · intro hr
    exact absurd (hfreed.symm.trans hr) Bool.false_ne_true

theorem handled_keeps (h : s.Inv n l) {c : ℕ} {t : ServerState}
    (hstep : handlerStep s (.handled c) = some t) : t.Inv n l := by
  obtain ⟨hphase, ⟨⟩⟩ := Option.ite_none_right_eq_some.mp hstep
  apply h.move
  · rfl
  · rfl
  · simp [hphase]
  · simp [hphase]
  · rfl
  · intro hr
    rcases (h.client c).freed hr with hc | ⟨hrunning, -⟩
    · simp [hphase] at hc
    · exact Or.inr ⟨hrunning, rfl⟩

theorem timeout_keeps (h : s.Inv n l) {c : ℕ} {t : ServerState}
    (hstep : handlerStep s (.timeout c) = some t) : t.Inv n l := by
  obtain ⟨hphase, ⟨⟩⟩ := Option.ite_none_right_eq_some.mp hstep
  apply h.move
  · rfl
  · rfl
  · simp [hphase]
  · simp [hphase]
  · rfl
  · exact fun _ => Or.inl rfl

/-! ## Handlers with the lock -/

/-- The lock is held by one only. -/
theorem ServerState.Inv.lock_eq (h : s.Inv n l) {c : ℕ}
    (hc : (s.record c).phase.isLocked = true) :
    s.lock = some (.handler c) ∧ s.main.isLocked = false := by
  have hlock : s.lock = some (.handler c) := (h.client c).lock.mpr hc
  refine ⟨hlock, ?_⟩
  rw [← Bool.not_eq_true, ← h.lockMain, hlock]
  simp

theorem acquire_keeps (h : s.Inv n l) {c : ℕ} (hfreed : (s.record c).freed = false)
    {t : ServerState} (hstep : handlerStep s (.acquire c) = some t) : t.Inv n l := by
  obtain ⟨⟨hphase, hlock⟩, ⟨⟩⟩ := Option.ite_none_right_eq_some.mp hstep
  have hc := h.client c
  have hended : (s.record c).phase ≠ .ended := by simp [hphase]
  apply h.goto
  · rfl
  · exact hended
  · refine ⟨?_, ?_, ?_, ?_, ?_, ?_⟩
    · intro hle
      exact absurd (hc.noThread hle) hended
    · intro hr
      exact absurd (hfreed.symm.trans hr) Bool.false_ne_true
    · exact fun _ => ⟨hfreed, by simp⟩
    · exact fun _ _ _ hmain => hc.mem hfreed hended (by simp [hphase]) hmain
    · simp
    · intro i hi j hj
      injection hi with hi
      omega
  · intro d hd
    simp [hlock, hd.symm]
  · simp [hlock]
  · exact Or.inl rfl

/-- In a search the own record is in `clients`, not before the place reached. -/
theorem ServerState.Inv.searching_mem (h : s.Inv n l) {c i : ℕ}
    (hphase : (s.record c).phase = .searching i) : ∃ k, i ≤ k ∧ l[k]? = some c := by
  have hfreed : (s.record c).freed = false := h.not_freed (by simp [hphase]) (by simp [hphase])
  have hunlocked := (h.lock_eq (c := c) (by simp [hphase])).2
  have hmem : c ∈ l := by
    refine (h.client c).mem hfreed (by simp [hphase]) (by simp [hphase]) ?_
    intro k hk
    simp [hk] at hunlocked
  obtain ⟨k, hk⟩ := List.mem_iff_getElem?.mp hmem
  refine ⟨k, ?_, hk⟩
  by_contra hlt
  exact (h.client c).search i hphase k (by omega) hk

theorem clientCompare_keeps (h : s.Inv n l) {c : ℕ} {junk : Bool} {t : ServerState}
    (hstep : handlerStep s (.compare c junk) = some t) : ∃ l', t.Inv n l' := by
  unfold handlerStep at hstep
  dsimp only at hstep
  split at hstep
  case h_2 => simp at hstep
  case h_1 i hphase =>
    obtain ⟨k, hik, hk⟩ := h.searching_mem hphase
    obtain ⟨hklt, -⟩ := List.getElem?_eq_some_iff.mp hk
    obtain ⟨d, hd⟩ : ∃ d, l[i]? = some d := ⟨l[i], List.getElem?_eq_getElem (by omega)⟩
    have hdl : d ∈ l := List.mem_iff_getElem?.mpr ⟨i, hd⟩
    have hcl : c ∈ l := List.mem_iff_getElem?.mpr ⟨k, hk⟩
    have hc := h.client c
    have hcfreed : (s.record c).freed = false := (hc.unfreed hcl).1
    have hdfreed : (s.record d).freed = false := ((h.client d).unfreed hdl).1
    obtain ⟨hlock, hunlocked⟩ := h.lock_eq (c := c) (by simp [hphase])
    obtain ⟨clients, -, hholds, hturn⟩ := searchTurn_holds h.holds hd
      fun d => s.sameThread c d junk
    have hsame : s.sameThread c d junk = decide (d = c) := by
      rw [ServerState.sameThread, hcfreed, hdfreed, if_neg (by decide), beq_eq_decide]
      by_cases hdc : d = c
      · simp [hdc]
      · have hne : (s.record d).threadId ≠ (s.record c).threadId :=
          fun heq => hdc (h.distinct d (h.lt d hdl) c (h.lt c hcl) heq)
        simp [hdc, hne]
    have huse : (s.use c).use d = s := by
      rw [ServerState.use_eq h.usedFreed hcfreed, ServerState.use_eq h.usedFreed hdfreed]
    rw [hturn, hsame] at hstep
    by_cases hdc : d = c
    -- the own record: it is taken out and the search ends
    · simp only [hdc, decide_true, if_true, Option.some.injEq] at hstep
      rw [hdc] at huse hd
      rw [huse] at hstep
      subst hstep
      refine ⟨swapRemove l i, h.replace rfl hholds (nodup_swapRemove h.nodup hd) (h.lt c hcl) ?_ ?_
        (fun _ _ => Iff.rfl) ?_ Iff.rfl ?_⟩
      · intro e he
        simp [mem_swapRemove h.nodup hd, he]
      · refine ⟨?_, ?_, ?_, ?_, ?_, ?_⟩
        · intro hle
          exact absurd (hc.noThread hle) (by simp [hphase])
        · intro hr
          exact absurd (hcfreed.symm.trans hr) Bool.false_ne_true
        · intro hmem
          exact absurd hmem (by simp [mem_swapRemove h.nodup hd])
        · intro _ _ hr
          exact absurd rfl hr
        · show s.lock = _ ↔ _
          simp [hlock]
        · simp
      · intro e he j hj
        have := (h.client e).lock.mpr (by simp [hj])
        rw [hlock] at this
        exact absurd this (by simp [he.symm])
      · have hmain := h.main
        revert hunlocked hmain
        cases s.main with
        | releasing k => simp
        | closed k e => simp
        | removed k e => simp
        | done =>
          rintro - hnil
          rw [show l = [] from hnil] at hcl
          simp at hcl
        | _ => exact fun _ _ => trivial
    -- another record: the search goes on
    · simp only [hdc, decide_false, Bool.false_eq_true, if_false, Option.some.injEq] at hstep
      rw [huse] at hstep
      subst hstep
      refine ⟨l, ?_⟩
      apply h.goto
      · rfl
      · simp [hphase]
      · refine ⟨?_, ?_, ?_, ?_, ?_, ?_⟩
        · intro hle
          exact absurd (hc.noThread hle) (by simp [hphase])
        · intro hr
          exact absurd (hcfreed.symm.trans hr) Bool.false_ne_true
        · exact fun _ => ⟨hcfreed, by simp⟩
        · exact fun _ _ _ _ => hcl
        · show s.lock = _ ↔ _
          simp [hlock]
        · intro i' hi
          injection hi with hi
          rw [← hi]
          exact search_next (hc.search i hphase) hd hdc
      · exact fun _ _ => Iff.rfl
      · exact Iff.rfl
      · exact Or.inl rfl

theorem release_keeps (h : s.Inv n l) {c : ℕ} {t : ServerState}
    (hstep : handlerStep s (.release c) = some t) : t.Inv n l := by
  obtain ⟨hphase, ⟨⟩⟩ := Option.ite_none_right_eq_some.mp hstep
  have hc := h.client c
  have hfreed : (s.record c).freed = false := h.not_freed (by simp [hphase]) (by simp [hphase])
  obtain ⟨hlock, hunlocked⟩ := h.lock_eq (c := c) (by simp [hphase])
  have hcl : c ∉ l := by
    intro hmem
    exact (hc.unfreed hmem).2 hphase
  rw [ServerState.use_eq h.usedFreed hfreed, ServerState.free_goto hfreed]
  apply h.goto
  · rfl
  · simp [hphase]
  · refine ⟨?_, fun _ => Or.inl rfl, ?_, ?_, ?_, ?_⟩
    · intro hle
      exact absurd (hc.noThread hle) (by simp [hphase])
    · intro hmem
      exact absurd hmem hcl
    · intro hr
      exact absurd hr.symm Bool.false_ne_true
    · show s.lock = _ ↔ _
      simp [hlock]
    · simp
  · exact fun _ _ => Iff.rfl
  · exact Iff.rfl
  · exact Or.inr hunlocked

theorem clientUnlock_keeps (h : s.Inv n l) {c : ℕ} {t : ServerState}
    (hstep : handlerStep s (.unlock c) = some t) : t.Inv n l := by
  obtain ⟨hphase, ⟨⟩⟩ := Option.ite_none_right_eq_some.mp hstep
  have hc := h.client c
  obtain ⟨hlock, hunlocked⟩ := h.lock_eq (c := c) (by simp [hphase])
  apply h.goto
  · rfl
  · simp [hphase]
  · refine ⟨fun _ => rfl, fun _ => Or.inl rfl, ?_, ?_, ?_, ?_⟩
    · intro hmem
      exact ⟨(hc.unfreed hmem).1, by simp⟩
    · intro _ hr
      exact absurd rfl hr
    · simp
    · simp
  · intro d hd
    simp [hlock, hd.symm]
  · simp [hlock]
  · exact Or.inl rfl

/-! ## SIGINT and `main` -/

theorem sigint_keeps (h : s.Inv n l) : ServerState.Inv { s with isRunning := false } n l := by
  refine ⟨h.defined, h.freedTwice, h.usedFreed, h.holds, h.nodup, h.lt, h.distinct, ?_, h.lockMain,
    fun _ => rfl, h.main⟩
  intro c
  have hc := h.client c
  refine ⟨hc.noThread, ?_, hc.unfreed, hc.mem, hc.lock, hc.search⟩
  intro hfreed
  exact (hc.freed hfreed).imp id fun hidle => ⟨rfl, hidle.2⟩

/-- A step of `main` that leaves the records and `clients` alone. -/
theorem ServerState.Inv.advance (h : s.Inv n l) {main : MainPhase} {lock : Option LockHolder}
    (hremoved : ∀ k c, s.main ≠ .removed k c) (hrunning : s.isRunning = false)
    (hlock : ∀ c, lock = some (.handler c) ↔ s.lock = some (.handler c))
    (hlockMain : lock = some .main ↔ main.isLocked = true) (hfits : main.Fits l s.record) :
    ServerState.Inv { s with main := main, lock := lock } n l := by
  refine ⟨h.defined, h.freedTwice, h.usedFreed, h.holds, h.nodup, h.lt, h.distinct, ?_, hlockMain,
    fun _ => hrunning, hfits⟩
  intro c
  have hc := h.client c
  refine ⟨hc.noThread, hc.freed, hc.unfreed, ?_, (hlock c).trans hc.lock, hc.search⟩
  exact fun h1 h2 h3 _ => hc.mem h1 h2 h3 fun k => hremoved k c

theorem mainTest_keeps (h : s.Inv n l) {t : ServerState}
    (hstep : mainStep s .mainTest = some t) : t.Inv n l := by
  obtain ⟨hmain, ⟨⟩⟩ := Option.ite_none_right_eq_some.mp hstep
  split_ifs with hrunning
  · exact h
  · apply h.advance
    · simp [hmain]
    · simpa using hrunning
    · exact fun _ => Iff.rfl
    · show s.lock = some .main ↔ _
      rw [h.lockMain, hmain]
      simp
    · trivial

theorem mainLock_keeps (h : s.Inv n l) {t : ServerState}
    (hstep : mainStep s .mainLock = some t) : t.Inv n l := by
  obtain ⟨⟨hmain, hlock⟩, ⟨⟩⟩ := Option.ite_none_right_eq_some.mp hstep
  apply h.advance
  · simp [hmain]
  · exact h.stopped (by simp [hmain])
  · simp [hlock]
  · simp
  · exact h.holds.count_eq.symm

theorem mainClose_keeps (h : s.Inv n l) {t : ServerState}
    (hstep : mainStep s .mainClose = some t) : t.Inv n l := by
  unfold mainStep at hstep
  dsimp only at hstep
  split at hstep
  case h_2 => simp at hstep
  case h_1 k hmain =>
    have hlength : l.length = k + 1 := by
      have := h.main
      rwa [hmain] at this
    obtain ⟨c, hc⟩ : ∃ c, l[k]? = some c := ⟨l[k], List.getElem?_eq_getElem (by omega)⟩
    have hcl : c ∈ l := List.mem_iff_getElem?.mpr ⟨k, hc⟩
    rw [h.holds.at (by omega), hc] at hstep
    injection hstep with hstep
    rw [ServerState.use_eq h.usedFreed ((h.client c).unfreed hcl).1] at hstep
    subst hstep
    apply h.advance
    · simp [hmain]
    · exact h.stopped (by simp [hmain])
    · exact fun _ => Iff.rfl
    · show s.lock = some .main ↔ _
      rw [h.lockMain, hmain]
      simp
    · exact ⟨hlength, hc⟩

theorem mainRemove_keeps (h : s.Inv n l) {t : ServerState}
    (hstep : mainStep s .mainRemove = some t) : ∃ l', t.Inv n l' := by
  unfold mainStep at hstep
  dsimp only at hstep
  split at hstep
  case h_2 => simp at hstep
  case h_1 k c hmain =>
    obtain ⟨hlength, hc⟩ : l.length = k + 1 ∧ l[k]? = some c := by
      have := h.main
      rwa [hmain] at this
    have hcl : c ∈ l := List.mem_iff_getElem?.mpr ⟨k, hc⟩
    obtain ⟨clients, hremove, -, hholds⟩ := vectorRemoveUnsafe_holds h.holds hc
    rw [hremove] at hstep
    injection hstep with hstep
    subst hstep
    have hmem := mem_swapRemove h.nodup hc
    have hlock : s.lock = some .main := by simp [h.lockMain, hmain]
    refine ⟨swapRemove l k, h.defined, h.freedTwice, h.usedFreed, hholds,
      nodup_swapRemove h.nodup hc, ?_, h.distinct, ?_, ?_, ?_, ?_⟩
    · exact fun d hd => h.lt d ((hmem d).mp hd).1
    · intro d
      have hd := h.client d
      refine ⟨hd.noThread, hd.freed, ?_, ?_, hd.lock, ?_⟩
      · exact fun hdl => hd.unfreed ((hmem d).mp hdl).1
      · intro h1 h2 h3 h4
        rw [hmem]
        refine ⟨hd.mem h1 h2 h3 (by simp [hmain]), ?_⟩
        rintro rfl
        exact h4 k rfl
      · intro i hi
        have hphase : (s.record d).phase = .searching i := hi
        have := hd.lock.mpr (by simp [hphase])
        simp [hlock] at this
    · rw [h.lockMain, hmain]
      simp
    · exact fun _ => h.stopped (by simp [hmain])
    · refine ⟨?_, ?_, ((h.client c).unfreed hcl).1⟩
      · rw [length_swapRemove, hlength]
        rfl
      · simp [hmem]

theorem mainFree_keeps (h : s.Inv n l) (hok : ReleasesIdle s .mainFree) {t : ServerState}
    (hstep : mainStep s .mainFree = some t) : t.Inv n l := by
  unfold mainStep at hstep
  dsimp only at hstep
  split at hstep
  case h_2 => simp at hstep
  case h_1 k c hmain =>
    obtain ⟨hlength, hcl, hfreed⟩ : l.length = k ∧ c ∉ l ∧ (s.record c).freed = false := by
      have := h.main
      rwa [hmain] at this
    injection hstep with hstep
    subst hstep
    have hrunning : s.isRunning = false := h.stopped (by simp [hmain])
    have hc := h.client c
    refine ⟨h.defined, ?_, h.usedFreed, h.holds, h.nodup, h.lt, h.distinct_update rfl,
      forall_update ?_ ⟨hc.noThread, ?_, ?_, ?_, hc.lock, hc.search⟩, ?_, fun _ => hrunning, hlength⟩
    · simp [ServerState.free, h.freedTwice, hfreed]
    · intro d hdc
      have hd := h.client d
      refine ⟨hd.noThread, hd.freed, hd.unfreed, ?_, hd.lock, hd.search⟩
      intro h1 h2 h3 _
      refine hd.mem h1 h2 h3 fun k' hk => ?_
      rw [hmain] at hk
      injection hk with _ hk
      exact hdc hk.symm
    · exact fun _ => Or.inr ⟨hrunning, hok k c hmain⟩
    · intro hmem
      exact absurd hmem hcl
    · intro hr
      exact absurd hr.symm Bool.false_ne_true
    · show s.lock = some .main ↔ _
      rw [h.lockMain, hmain]
      simp

theorem mainUnlock_keeps (h : s.Inv n l) {t : ServerState}
    (hstep : mainStep s .mainUnlock = some t) : t.Inv n l := by
  obtain ⟨hmain, ⟨⟩⟩ := Option.ite_none_right_eq_some.mp hstep
  have hlock : s.lock = some .main := by simp [h.lockMain, hmain]
  apply h.advance
  · simp [hmain]
  · exact h.stopped (by simp [hmain])
  · simp [hlock]
  · simp
  · have := h.main
    rw [hmain] at this
    exact List.length_eq_zero_iff.mp this

/-! ## Runs -/

theorem shutdownStep_main {a : ShutdownAction} (hhandler : handlerStep s a = none) :
    shutdownStep s a = mainStep s a := by
  rw [shutdownStep, hhandler, Option.or_none]

theorem shutdownStep_handler {a : ShutdownAction} (hmain : mainStep s a = none) :
    shutdownStep s a = handlerStep s a := by
  rw [shutdownStep, hmain, Option.none_or]

theorem shutdownStep_keeps {a : ShutdownAction} {t : ServerState} (h : s.Inv n l)
    (hok : ReleasesIdle s a) (hstep : shutdownStep s a = some t) : ∃ l', t.Inv n l' := by
  cases a with
  | sigint =>
    injection hstep with hstep
    exact ⟨l, hstep ▸ sigint_keeps h⟩
  | mainTest => exact ⟨l, mainTest_keeps h ((shutdownStep_main rfl).symm.trans hstep)⟩
  | mainLock => exact ⟨l, mainLock_keeps h ((shutdownStep_main rfl).symm.trans hstep)⟩
  | mainClose => exact ⟨l, mainClose_keeps h ((shutdownStep_main rfl).symm.trans hstep)⟩
  | mainRemove => exact mainRemove_keeps h ((shutdownStep_main rfl).symm.trans hstep)
  | mainFree => exact ⟨l, mainFree_keeps h hok ((shutdownStep_main rfl).symm.trans hstep)⟩
  | mainUnlock => exact ⟨l, mainUnlock_keeps h ((shutdownStep_main rfl).symm.trans hstep)⟩
  | test c => exact ⟨l, test_keeps h hstep⟩
  | readFlag c junk => exact ⟨l, readFlag_keeps h hstep⟩
  | callRecv c => exact ⟨l, callRecv_keeps h hstep⟩
  | recvReturns c outcome => exact ⟨l, recvReturns_keeps h hok hstep⟩
  | use c bye last => exact ⟨l, use_keeps h hstep⟩
  | handled c => exact ⟨l, handled_keeps h hstep⟩
  | timeout c => exact ⟨l, timeout_keeps h hstep⟩
  | acquire c => exact ⟨l, acquire_keeps h hok hstep⟩
  | compare c junk => exact clientCompare_keeps h hstep
  | release c => exact ⟨l, release_keeps h hstep⟩
  | unlock c => exact ⟨l, clientUnlock_keeps h hstep⟩

theorem ServerState.Serving.inv (h : s.Serving n) : s.Inv n (List.range n) := by
  refine ⟨h.defined, h.freedTwice, h.usedFreed, h.clients, List.nodup_range, ?_, h.distinct, ?_, ?_,
    ?_, ?_⟩
  · exact fun c hc => List.mem_range.mp hc
  · intro c
    rcases Nat.lt_or_ge c n with hlt | hge
    · obtain ⟨hphase, hfreed⟩ := h.handlers c hlt
      refine ⟨?_, ?_, ?_, ?_, ?_, ?_⟩
      · intro hle
        omega
      · intro hr
        exact absurd (hfreed.symm.trans hr) Bool.false_ne_true
      · exact fun _ => ⟨hfreed, by simp [hphase]⟩
      · exact fun _ _ _ _ => List.mem_range.mpr hlt
      · simp [h.lock, hphase]
      · simp [hphase]
    · have hphase := h.noThread c hge
      refine ⟨fun _ => hphase, ?_, ?_, ?_, ?_, ?_⟩
      · exact fun _ => Or.inl (by simp [hphase])
      · intro hmem
        have := List.mem_range.mp hmem
        omega
      · intro _ hr
        exact absurd hphase hr
      · simp [h.lock, hphase]
      · simp [hphase]
  · simp [h.lock, h.main]
  · intro hmain
    exact absurd h.main hmain
  · rw [h.main]
    trivial

theorem ServerState.Inv.safe (h : s.Inv n l) : s.Safe := by
  refine ⟨h.defined, h.freedTwice, h.usedFreed, ?_⟩
  intro hdone
  have hmain := h.main
  rw [hdone] at hmain
  rw [h.holds.count_eq, show l = [] from hmain]
  rfl

end Steps

/-- In every state of every run of steps that meet the condition no record has
    been freed twice or used behind its `free`, and `clients` is empty once the
    loop of `main` is over. -/
theorem shutdown_safe (n : ℕ) (s : ServerState) (hs : ShutdownReaches ReleasesIdle n s) :
    s.Safe := by
  have hinv : ∃ l, s.Inv n l := by
    refine hs.invariant (P := fun s => ∃ l, s.Inv n l) ?_ ?_
    · intro s hserving
      exact ⟨List.range n, hserving.inv⟩
    · rintro s a t ⟨l, h⟩ hok hstep
      exact shutdownStep_keeps h hok hstep
  obtain ⟨l, h⟩ := hinv
  exact h.safe

/-- One registered client. -/
def oneClient : ServerState where
  isRunning := true
  main := .looping
  lock := none
  clients := { array := some 0 :: List.replicate 9 none, size := 10, count := 1 }
  record c :=
    { threadId := c, isThreadRunning := true, freed := false, phase := if c = 0 then .top else .ended }
  freedTwice := false
  usedFreed := false
  undefined := false

theorem oneClient_serving : oneClient.Serving 1 := by
  refine ⟨rfl, rfl, rfl, ⟨rfl, by decide, by decide, by decide⟩, by decide, ?_, ?_, rfl, rfl, rfl⟩
  · intro c hc
    exact if_neg (by omega)
  · intro c _ d _ hcd
    exact hcd

/-- SIGINT while the handler of the client is in `recv`. -/
def idleEnd : List ShutdownAction :=
  [.test 0, .readFlag 0 false, .test 0, .callRecv 0, .sigint, .mainTest, .mainLock, .mainClose,
    .mainRemove, .mainFree, .mainUnlock, .recvReturns 0 .closed, .test 0, .test 0]

theorem shutdown_safe_idleEnd : ∃ s, run shutdownStep oneClient idleEnd = some s ∧ s.Safe := by
  obtain ⟨s, hrun⟩ : ∃ s, run shutdownStep oneClient idleEnd = some s := ⟨_, rfl⟩
  refine ⟨s, hrun, shutdown_safe 1 s (run_reaches (.init oneClient_serving) ?_ hrun)⟩
  refine ⟨trivial, trivial, trivial, trivial, trivial, trivial, trivial, trivial, trivial, ?_,
    trivial, fun _ => Or.inr rfl, trivial, trivial, trivial⟩
  intro k c hmain
  injection hmain with _ hc
  rw [← hc]
  rfl

/-- SIGINT between the last test of `is_running` of a handler whose client has
    said BYE and the hand-over of the lock to it. -/
def lateLock : List ShutdownAction :=
  [.test 0, .readFlag 0 false, .test 0, .callRecv 0, .recvReturns 0 .line, .test 0, .use 0 true true,
    .handled 0, .test 0, .readFlag 0 false, .test 0, .sigint, .mainTest, .mainLock, .mainClose,
    .mainRemove, .mainFree, .mainUnlock, .acquire 0, .compare 0 false, .release 0]

/-- Then the record is freed a second time. -/
theorem shutdown_frees_twice :
    ¬ ∀ n s, ShutdownReaches (fun _ _ => True) n s → s.Safe := by
  intro h
  obtain ⟨s, hrun, htwice⟩ :
      ∃ s, run shutdownStep oneClient lateLock = some s ∧ s.freedTwice = true := ⟨_, rfl, rfl⟩
  have hsafe := h 1 s (run_reaches (.init oneClient_serving) (along_trivial _ _) hrun)
  exact Bool.false_ne_true (hsafe.freedTwice.symm.trans htwice)

end Memuncached.Server
