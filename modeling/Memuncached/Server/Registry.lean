import Memuncached.Lib.Transitions
import Memuncached.Server.Vector

/-!
# The registry of connected clients

The accept loop of `main` (server.c, lines 79-109) and the handler threads of its
connections (connection.c, lines 12-18 and 116-133), interleaved step by step,
with `is_running` true. Every `malloc` of a record is a new number; what its
`thread_id` holds until the thread has written it is arbitrary.

* `registryStep_keeps`: the invariant of the registry is kept by every step that
  meets `CleansUpRegistered`.
* `registry_sound`: in a run of such steps no pointer in `clients` is to a freed
  record and every clean-up removes its own record and no other.
* `registry_holds_freed`: without the condition a freed record gets into
  `clients`.
-/

namespace Memuncached.Server

open Transitions SwapRemove

/-! ## The search for the own record -/

/-- What a turn of the search does: it is over, goes on behind the record `c`, has
    taken a record out at the place of `c`, or accesses what is not there. -/
inductive SearchTurn where
  | over
  | next (c : ℕ)
  | found (c : ℕ) (taken : Option ℕ) (clients : Vector ℕ)
  | undefined

/-- A turn of the loop over `clients` in the clean-up, `same` being the
    comparison of the thread ids (connection.c, lines 118-124). -/
def searchTurn (clients : Vector ℕ) (i : ℕ) (same : ℕ → Bool) : SearchTurn :=
  if i < clients.count then
    match vectorAtUnsafe clients i with
    | some (some c) =>
      if same c then
        match vectorRemoveUnsafe clients i with
        | some (taken, clients) => .found c taken clients
        | none => .undefined
      else .next c
    | _ => .undefined
  else .over

/-- A turn on a vector that holds `l`. -/
theorem searchTurn_holds {clients : Vector ℕ} {l : List ℕ} (h : clients.Holds l) {i d : ℕ}
    (hi : l[i]? = some d) (same : ℕ → Bool) :
    ∃ clients', clients'.size = clients.size ∧ clients'.Holds (swapRemove l i) ∧
      searchTurn clients i same = if same d then .found d (some d) clients' else .next d := by
  obtain ⟨hlt, -⟩ := List.getElem?_eq_some_iff.mp hi
  obtain ⟨clients', hremove, hsize, hholds⟩ := vectorRemoveUnsafe_holds h hi
  refine ⟨clients', hsize, hholds, ?_⟩
  have hcount := h.count_eq
  rw [searchTurn, if_pos (by omega), h.at hlt, hi]
  simp only [hremove]

/-- A turn that meets another record goes on with none of the own behind it. -/
theorem search_next {l : List ℕ} {c d i : ℕ} (hsearch : ∀ j < i, l[j]? ≠ some c)
    (hi : l[i]? = some d) (hdc : d ≠ c) : ∀ j < i + 1, l[j]? ≠ some c := by
  intro j hj
  rcases Nat.lt_succ_iff_lt_or_eq.mp hj with hj | rfl
  · exact hsearch j hj
  · rw [hi]
    exact fun h => hdc (Option.some.inj h)

/-! ## State -/

/-- How far a connection has come. -/
inductive Phase where
  /-- Not allocated yet. -/
  | absent
  /-- The record has no thread yet. -/
  | allocated
  /-- No connection or no thread for it, and `main` has freed the record. -/
  | refused
  /-- The thread has not written its id yet. -/
  | created
  | serving
  /-- Out of the loop, before the timed lock. -/
  | leaving
  /-- With the lock, at the `i`-th client. -/
  | searching (i : ℕ)
  /-- Behind the search, with the record not freed yet. -/
  | searched
  /-- The record is freed, the lock not yet given back. -/
  | cleaned
  | ended
  deriving DecidableEq, Repr

namespace Phase

@[simp] def isSpawned : Phase → Bool
  | absent | allocated | refused => false
  | _ => true

/-- The thread has written its id into the record. -/
@[simp] def isStarted : Phase → Bool
  | absent | allocated | refused | created => false
  | _ => true

/-- There is a thread, whose id no other thread can have. -/
@[simp] def isLive : Phase → Bool
  | absent | allocated | refused | ended => false
  | _ => true

@[simp] def isLocked : Phase → Bool
  | searching _ | searched | cleaned => true
  | _ => false

/-- The clean-up has looked for its record. -/
@[simp] def isSearched : Phase → Bool
  | searched | cleaned | ended => true
  | _ => false

/-- The clean-up has begun. -/
@[simp] def isCleaning : Phase → Bool
  | searching _ | searched | cleaned | ended => true
  | _ => false

@[simp] def isFreed : Phase → Bool
  | refused | cleaned | ended => true
  | _ => false

theorem isSearched_eq_false {p : Phase} (h : p.isCleaning = false) : p.isSearched = false := by
  cases p <;> first | rfl | exact absurd h (by simp)

theorem isLocked_eq_false {p : Phase} (h : p.isCleaning = false) : p.isLocked = false := by
  cases p <;> first | rfl | exact absurd h (by simp)

end Phase

/-- A connection: the `thread_id` of its record and whether that is freed, the id
    its thread has (`pthread_self`), and for the statements whether the record
    has been inserted and what its clean-up has taken out of `clients`. -/
structure Connection where
  threadId : ℕ
  freed : Bool
  self : ℕ
  phase : Phase
  inserted : Bool
  took : List ℕ
  deriving DecidableEq, Repr

/-- Where `main` is in its loop. -/
inductive AcceptPhase where
  /-- Before `malloc`. -/
  | accepting
  /-- With the new record, before `pthread_create`. -/
  | spawning (c : ℕ)
  /-- Before `vector_insert`. -/
  | inserting (c : ℕ)
  deriving DecidableEq, Repr

/-- The connections and `clients`. A record is known by the number of its
    `malloc`, `lock` by the handler that holds it. -/
structure Registry where
  connections : ℕ → Connection
  next : ℕ
  main : AcceptPhase
  lock : Option ℕ
  clients : Vector ℕ
  undefined : Bool

/-- A step of `main` or of the handler of connection `c`. -/
inductive RegistryAction where
  | malloc (junk : ℕ)
  | refuse
  | spawn (self : ℕ)
  | insert (mem : Option (ℕ → Option ℕ))
  | start (c : ℕ)
  | serve (c : ℕ)
  | leave (c : ℕ)
  | lock (c : ℕ)
  | compare (c : ℕ) (junk : ℕ)
  | free (c : ℕ)
  | unlock (c : ℕ)

/-- Nothing allocated, and the vector that `main` has created (server.c, line 41). -/
def Registry.initial : Registry where
  connections _ :=
    { threadId := 0, freed := false, self := 0, phase := .absent, inserted := false, took := [] }
  next := 0
  main := .accepting
  lock := none
  clients := vectorCreate 10
  undefined := false

/-- The state with connection `c` changed. -/
def Registry.set (s : Registry) (c : ℕ) (f : Connection → Connection) : Registry :=
  { s with connections := Function.update s.connections c (f (s.connections c)) }

/-- `c->thread_id`. A freed record holds anything. -/
def Registry.readThreadId (s : Registry) (c junk : ℕ) : ℕ :=
  if (s.connections c).freed then junk else (s.connections c).threadId

/-! ## Steps -/

/-- The steps of the accept loop and of the handlers, each lock granted. -/
def registryStep (s : Registry) : RegistryAction → Option Registry
  | .malloc junk =>
    if s.main = .accepting then
      some { s.set s.next fun r => { r with threadId := junk, phase := .allocated } with
        next := s.next + 1, main := .spawning s.next }
    else none
  -- `accept` or `pthread_create` has failed (server.c, lines 83-91 and 97-100)
  | .refuse =>
    match s.main with
    | .spawning c =>
      some { s.set c fun r => { r with phase := .refused, freed := true } with main := .accepting }
    | _ => none
  -- the system gives the new thread an id that no live thread has
  | .spawn self =>
    match s.main with
    | .spawning c =>
      if ∀ d < s.next, (s.connections d).phase.isLive = true → (s.connections d).self ≠ self then
        some { s.set c fun r => { r with phase := .created, self := self } with
          main := .inserting c }
      else none
    | _ => none
  | .insert mem =>
    match s.main with
    | .inserting c =>
      if s.lock = none then
        match vectorInsertUnsafe s.clients (some c) mem with
        | some (ok, clients) =>
          some { s.set c fun r => { r with inserted := ok } with
            main := .accepting, clients := clients }
        | none => some { s with undefined := true }
      else none
    | _ => none
  | .start c =>
    if (s.connections c).phase = .created then
      some (s.set c fun r => { r with threadId := r.self, phase := .serving })
    else none
  | .serve c => if (s.connections c).phase = .serving then some s else none
  | .leave c =>
    if (s.connections c).phase = .serving then some (s.set c fun r => { r with phase := .leaving })
    else none
  | .lock c =>
    if (s.connections c).phase = .leaving ∧ s.lock = none then
      some { s.set c fun r => { r with phase := .searching 0 } with lock := some c }
    else none
  | .compare c junk =>
    match (s.connections c).phase with
    | .searching i =>
      match searchTurn s.clients i
          fun d => s.readThreadId d junk == (s.connections c).threadId with
      | .over => some (s.set c fun r => { r with phase := .searched })
      | .next _ => some (s.set c fun r => { r with phase := .searching (i + 1) })
      | .found _ taken clients =>
        some { s.set c fun r => { r with phase := .searched, took := r.took ++ taken.toList } with
          clients := clients }
      | .undefined => some { s with undefined := true }
    | _ => none
  | .free c =>
    if (s.connections c).phase = .searched then
      some (s.set c fun r => { r with phase := .cleaned, freed := true })
    else none
  | .unlock c =>
    if (s.connections c).phase = .cleaned then
      some { s.set c fun r => { r with phase := .ended } with lock := none }
    else none

/-! ## What the registry promises -/

/-- The pointer to `c` is in a used slot of `clients`. -/
def Registry.Registered (s : Registry) (c : ℕ) : Prop :=
  ∃ i < s.clients.count, vectorAtUnsafe s.clients i = some (some c)

/-- Every used slot holds a record that is not freed; a clean-up has removed its
    own record and no other, and so an inserted record is in `clients` until its
    own clean-up, and not any more behind it. -/
structure Registry.Sound (s : Registry) : Prop where
  defined : s.undefined = false
  live : ∀ i < s.clients.count, ∃ c, vectorAtUnsafe s.clients i = some (some c) ∧
    (s.connections c).freed = false
  removes_own : ∀ c, (s.connections c).phase.isSearched = true → (s.connections c).took = [c]
  kept : ∀ c, (s.connections c).inserted = true → (s.connections c).phase.isSearched = false →
    s.Registered c
  gone : ∀ c, (s.connections c).inserted = true → (s.connections c).phase.isSearched = true →
    ¬ s.Registered c

/-- The condition on a step: a clean-up begins with its record inserted, it
    compares with no record that holds its thread id by chance, its own thread
    not having written it, and an insert has a slot to write to. -/
def CleansUpRegistered (s : Registry) : RegistryAction → Prop
  | .insert _ => s.clients.HasRoom
  | .lock c => (s.connections c).inserted = true
  | .compare c _ => ∀ i d, (s.connections c).phase = .searching i →
      vectorAtUnsafe s.clients i = some (some d) → (s.connections d).phase = .created →
      (s.connections d).threadId ≠ (s.connections c).threadId
  | _ => True

/-- The states of the runs whose steps meet `ok`. -/
def RegistryReaches (ok : Registry → RegistryAction → Prop) : Registry → Prop :=
  Reaches registryStep ok (· = Registry.initial)

/-! ## The invariant -/

/-- What holds of a connection by itself. -/
structure Connection.Consistent (c : ℕ) (r : Connection) : Prop where
  freed_eq : r.freed = r.phase.isFreed
  took_eq : r.took = if r.phase.isSearched then [c] else []
  threadId_eq : r.phase.isStarted = true → r.threadId = r.self
  spawned : r.inserted = true → r.phase.isSpawned = true
  inserted : r.phase.isCleaning = true → r.inserted = true

/-- The invariant, `l` being the records in `clients`. -/
structure Registry.Inv (s : Registry) (l : List ℕ) : Prop where
  defined : s.undefined = false
  holds : s.clients.Holds l
  size_pos : 0 < s.clients.size
  nodup : l.Nodup
  mem : ∀ c, c ∈ l ↔ (s.connections c).inserted = true ∧ (s.connections c).phase.isSearched = false
  consistent : ∀ c, (s.connections c).Consistent c
  fresh : ∀ c, s.next ≤ c → (s.connections c).phase = .absent
  spawning : ∀ c, s.main = .spawning c → (s.connections c).phase = .allocated
  inserting : ∀ c, s.main = .inserting c →
    (s.connections c).inserted = false ∧ (s.connections c).phase.isSpawned = true
  distinct : ∀ c d, (s.connections c).phase.isLive = true → (s.connections d).phase.isLive = true →
    (s.connections c).self = (s.connections d).self → c = d
  lock : ∀ c, s.lock = some c ↔ (s.connections c).phase.isLocked = true
  search : ∀ c i, (s.connections c).phase = .searching i → ∀ j < i, l[j]? ≠ some c

/-- What a step may do: it changes one connection and leaves the rest of the
    invariant to be shown for that one. -/
theorem Registry.Inv.update {s t : Registry} {l l' : List ℕ} (h : s.Inv l) {c : ℕ}
    {r : Connection} (hrecords : t.connections = Function.update s.connections c r)
    (hdefined : t.undefined = false) (hholds : t.clients.Holds l') (hsize : 0 < t.clients.size)
    (hnodup : l'.Nodup) (hother : ∀ d, d ≠ c → (d ∈ l' ↔ d ∈ l))
    (hown : c ∈ l' ↔ r.inserted = true ∧ r.phase.isSearched = false)
    (hcons : r.Consistent c) (hnext : s.next ≤ t.next) (hc : c < t.next)
    (hspawning : ∀ d, t.main = .spawning d → (t.connections d).phase = .allocated)
    (hinserting : ∀ d, t.main = .inserting d →
      (t.connections d).inserted = false ∧ (t.connections d).phase.isSpawned = true)
    (hlive : r.phase.isLive = true → ∀ d, d ≠ c → (s.connections d).phase.isLive = true →
      (s.connections d).self ≠ r.self)
    (hlockOwn : t.lock = some c ↔ r.phase.isLocked = true)
    (hlockOther : ∀ d, d ≠ c → (t.lock = some d ↔ s.lock = some d))
    (hsearchOwn : ∀ i, r.phase = .searching i → ∀ j < i, l'[j]? ≠ some c)
    (hsearchOther : ∀ d i, d ≠ c → (s.connections d).phase = .searching i →
      ∀ j < i, l'[j]? ≠ some d) : t.Inv l' := by
  have hself : t.connections c = r := by rw [hrecords, Function.update_self]
  have hrest : ∀ d, d ≠ c → t.connections d = s.connections d := by
    intro d hd
    rw [hrecords, Function.update_of_ne hd]
  refine ⟨hdefined, hholds, hsize, hnodup, ?_, ?_, ?_, hspawning, hinserting, ?_, ?_, ?_⟩
  · intro d
    by_cases hd : d = c
    · rw [hd, hself, hown]
    · rw [hrest d hd, hother d hd, h.mem]
  · intro d
    by_cases hd : d = c
    · rw [hd, hself]
      exact hcons
    · rw [hrest d hd]
      exact h.consistent d
  · intro d hd
    rw [hrest d (by omega)]
    exact h.fresh d (by omega)
  · intro d e hd he heq
    by_cases hdc : d = c <;> by_cases hec : e = c
    · rw [hdc, hec]
    · rw [hdc, hself] at hd heq
      rw [hrest e hec] at he heq
      exact absurd heq.symm (hlive hd e hec he)
    · rw [hec, hself] at he heq
      rw [hrest d hdc] at hd heq
      exact absurd heq (hlive he d hdc hd)
    · rw [hrest d hdc] at hd heq
      rw [hrest e hec] at he heq
      exact h.distinct d e hd he heq
  · intro d
    by_cases hd : d = c
    · rw [hd, hself, hlockOwn]
    · rw [hrest d hd, hlockOther d hd, h.lock]
  · intro d i hd
    by_cases hdc : d = c
    · rw [hdc] at hd ⊢
      rw [hself] at hd
      exact hsearchOwn i hd
    · rw [hrest d hdc] at hd
      exact hsearchOther d i hdc hd

theorem Registry.Inv.lt_next {s : Registry} {l : List ℕ} (h : s.Inv l) {c : ℕ}
    (hc : (s.connections c).phase ≠ .absent) : c < s.next := by
  by_contra hle
  exact hc (h.fresh c (by omega))

/-- Only the holder of the lock searches. -/
theorem Registry.Inv.not_searching {s : Registry} {l : List ℕ} (h : s.Inv l) {d i : ℕ}
    (hlock : s.lock ≠ some d) : (s.connections d).phase ≠ .searching i := by
  intro hd
  apply hlock
  rw [h.lock, hd]
  rfl

/-- A step of a handler: `clients` and `main` are as before, and the connection
    stays on the same side of the search. -/
theorem Registry.Inv.handler {s : Registry} {l : List ℕ} (h : s.Inv l) {c : ℕ} {r : Connection}
    {lock : Option ℕ} (hspawned : (s.connections c).phase.isSpawned = true)
    (hspawned' : r.phase.isSpawned = true) (hinserted : r.inserted = (s.connections c).inserted)
    (hself : r.self = (s.connections c).self)
    (hsearched : r.phase.isSearched = (s.connections c).phase.isSearched)
    (hlive : r.phase.isLive = true → (s.connections c).phase.isLive = true)
    (hcons : r.Consistent c) (hlockOwn : lock = some c ↔ r.phase.isLocked = true)
    (hlockOther : ∀ d, d ≠ c → (lock = some d ↔ s.lock = some d))
    (hsearch : ∀ i, r.phase = .searching i → ∀ j < i, l[j]? ≠ some c) :
    Registry.Inv { s with connections := Function.update s.connections c r, lock := lock } l := by
  refine @Registry.Inv.update s _ l l h c r rfl h.defined h.holds h.size_pos h.nodup
    (fun _ _ => Iff.rfl) ?_ hcons (Nat.le_refl _) ?_ ?_ ?_ ?_ hlockOwn hlockOther hsearch
    fun d i _ hd => h.search d i hd
  · rw [h.mem, hinserted, hsearched]
  · apply h.lt_next
    intro habsent
    rw [habsent] at hspawned
    exact absurd hspawned (by decide)
  · intro d hd
    have hallocated : (s.connections d).phase = .allocated := h.spawning d hd
    have hdc : d ≠ c := by
      rintro rfl
      rw [hallocated] at hspawned
      exact absurd hspawned (by decide)
    show (Function.update s.connections c r d).phase = .allocated
    rw [Function.update_of_ne hdc, hallocated]
  · intro d hd
    show (Function.update s.connections c r d).inserted = false ∧
      (Function.update s.connections c r d).phase.isSpawned = true
    by_cases hdc : d = c
    · rw [hdc, Function.update_self, hinserted]
      exact ⟨hdc ▸ (h.inserting d hd).1, hspawned'⟩
    · rw [Function.update_of_ne hdc]
      exact h.inserting d hd
  · intro hr d hd hdlive heq
    exact hd (h.distinct d c hdlive (hlive hr) (heq.trans hself))

/-- The phase of a connection determines what is consistent about the rest. -/
theorem Connection.Consistent.advance {c : ℕ} {r : Connection} (h : r.Consistent c) {phase : Phase}
    (hspawned : phase.isSpawned = true) (hstarted : r.phase.isStarted = true)
    (hfreed : phase.isFreed = r.phase.isFreed) (hsearched : phase.isSearched = r.phase.isSearched)
    (hcleaning : phase.isCleaning = true → r.inserted = true) :
    Connection.Consistent c { r with phase := phase } where
  freed_eq := by rw [hfreed, ← h.freed_eq]
  took_eq := by rw [hsearched, ← h.took_eq]
  threadId_eq := fun _ => h.threadId_eq hstarted
  spawned := fun _ => hspawned
  inserted := hcleaning

/-! ## Steps of `main` -/

theorem malloc_keeps {s : Registry} {l : List ℕ} (h : s.Inv l) {junk : ℕ} {t : Registry}
    (hstep : registryStep s (.malloc junk) = some t) : t.Inv l := by
  obtain ⟨hmain, ⟨⟩⟩ := Option.ite_none_right_eq_some.mp hstep
  have habsent : (s.connections s.next).phase = .absent := h.fresh s.next (Nat.le_refl _)
  have hcons := h.consistent s.next
  have hinserted : (s.connections s.next).inserted = false := by
    cases hins : (s.connections s.next).inserted with
    | false => rfl
    | true =>
      have := hcons.spawned hins
      rw [habsent] at this
      exact absurd this (by decide)
  have hlock : s.lock ≠ some s.next := by
    rw [Ne, h.lock, habsent]
    decide
  refine h.update rfl h.defined h.holds h.size_pos h.nodup (fun _ _ => Iff.rfl) ?_ ?_
    (Nat.le_succ _) (Nat.lt_succ_self _) ?_ ?_ ?_ ?_ (fun _ _ => Iff.rfl) ?_
    fun d i _ hd => h.search d i hd
  · simp [h.mem, hinserted]
  · refine ⟨?_, ?_, ?_, ?_, ?_⟩
    · simp [hcons.freed_eq, habsent]
    · simp [hcons.took_eq, habsent]
    · simp
    · simp [hinserted]
    · simp
  · intro d hd
    injection hd with hd
    rw [← hd]
    simp [Registry.set]
  · simp
  · simp
  · show s.lock = some s.next ↔ _
    simp [hlock]
  · simp

/-- The record that `main` has allocated: no thread, nothing inserted. -/
theorem Registry.Inv.allocated {s : Registry} {l : List ℕ} (h : s.Inv l) {c : ℕ}
    (hmain : s.main = .spawning c) :
    (s.connections c).phase = .allocated ∧ (s.connections c).inserted = false ∧ c < s.next ∧
      s.lock ≠ some c := by
  have hphase : (s.connections c).phase = .allocated := h.spawning c hmain
  refine ⟨hphase, ?_, h.lt_next (by simp [hphase]), ?_⟩
  · have := (h.consistent c).spawned
    rw [hphase] at this
    simpa using this
  · rw [Ne, h.lock, hphase]
    simp

theorem refuse_keeps {s : Registry} {l : List ℕ} (h : s.Inv l) {t : Registry}
    (hstep : registryStep s .refuse = some t) : t.Inv l := by
  unfold registryStep at hstep
  dsimp only at hstep
  split at hstep
  case h_2 => simp at hstep
  case h_1 c hmain =>
    injection hstep with hstep
    subst hstep
    obtain ⟨hphase, hinserted, hlt, hlock⟩ := h.allocated hmain
    have hcons := h.consistent c
    refine h.update rfl h.defined h.holds h.size_pos h.nodup (fun _ _ => Iff.rfl) ?_ ?_
      (Nat.le_refl _) hlt ?_ ?_ ?_ ?_ (fun _ _ => Iff.rfl) ?_ fun d i _ hd => h.search d i hd
    · simp [h.mem, hinserted]
    · refine ⟨rfl, ?_, ?_, ?_, ?_⟩
      · simp [hcons.took_eq, hphase]
      · simp
      · simp [hinserted]
      · simp
    · simp
    · simp
    · simp
    · show s.lock = some c ↔ _
      simp [hlock]
    · simp

theorem spawn_keeps {s : Registry} {l : List ℕ} (h : s.Inv l) {self : ℕ} {t : Registry}
    (hstep : registryStep s (.spawn self) = some t) : t.Inv l := by
  unfold registryStep at hstep
  dsimp only at hstep
  split at hstep
  case h_2 => simp at hstep
  case h_1 c hmain =>
    simp only [Option.ite_none_right_eq_some, Option.some.injEq] at hstep
    obtain ⟨hself, rfl⟩ := hstep
    obtain ⟨hphase, hinserted, hlt, hlock⟩ := h.allocated hmain
    have hcons := h.consistent c
    refine h.update rfl h.defined h.holds h.size_pos h.nodup (fun _ _ => Iff.rfl) ?_ ?_
      (Nat.le_refl _) hlt ?_ ?_ ?_ ?_ (fun _ _ => Iff.rfl) ?_ fun d i _ hd => h.search d i hd
    · simp [h.mem, hinserted]
    · refine ⟨?_, ?_, ?_, ?_, ?_⟩
      · simp [hcons.freed_eq, hphase]
      · simp [hcons.took_eq, hphase]
      · simp
      · simp
      · simp
    · simp
    · intro d hd
      injection hd with hd
      rw [← hd]
      simp [Registry.set, hinserted]
    · intro _ d _ hd
      exact hself d (h.lt_next fun habsent => by simp [habsent] at hd) hd
    · show s.lock = some c ↔ _
      simp [hlock]
    · simp

theorem insert_keeps {s : Registry} {l : List ℕ} (h : s.Inv l) {mem : Option (ℕ → Option ℕ)}
    (hroom : s.clients.HasRoom) {t : Registry} (hstep : registryStep s (.insert mem) = some t) :
    ∃ l', t.Inv l' := by
  unfold registryStep at hstep
  dsimp only at hstep
  split at hstep
  case h_2 => simp at hstep
  case h_1 c hmain =>
    obtain ⟨hinserted, hspawned⟩ := h.inserting c hmain
    obtain ⟨ok, clients, hins, hpos, hholds⟩ :=
      vectorInsertUnsafe_holds h.holds h.size_pos hroom c mem
    simp only [hins, Option.ite_none_right_eq_some, Option.some.injEq] at hstep
    obtain ⟨hlock, rfl⟩ := hstep
    have hnot : c ∉ l := by simp [h.mem, hinserted]
    have hcons := h.consistent c
    have hcleaning : (s.connections c).phase.isCleaning = false := by
      rw [← Bool.not_eq_true]
      intro hs
      rw [hcons.inserted hs] at hinserted
      exact absurd hinserted (by decide)
    refine ⟨_, h.update rfl h.defined hholds hpos ?_ ?_ ?_ ?_ (Nat.le_refl _) ?_ ?_ ?_ ?_ ?_
      (fun _ _ => Iff.rfl) ?_ ?_⟩
    · cases ok with
      | false => exact h.nodup
      | true => exact h.nodup.append (List.nodup_singleton c) (by simpa using hnot)
    · intro d hd
      cases ok with
      | false => exact Iff.rfl
      | true => simp [hd]
    · cases ok with
      | false => simpa using hnot
      | true =>
        simp only [if_true, List.mem_append, List.mem_singleton, or_true, true_and, true_iff]
        exact Phase.isSearched_eq_false hcleaning
    · refine ⟨hcons.freed_eq, hcons.took_eq, hcons.threadId_eq, fun _ => hspawned, ?_⟩
      intro hs
      exact absurd (hcleaning.symm.trans hs) Bool.false_ne_true
    · apply h.lt_next
      intro habsent
      simp [habsent] at hspawned
    · simp
    · simp
    · intro hs d hd hlive heq
      exact hd (h.distinct d c hlive hs heq)
    · show s.lock = some c ↔ (s.connections c).phase.isLocked = true
      rw [hlock, Phase.isLocked_eq_false hcleaning]
      simp
    · intro i hi
      have hphase : (s.connections c).phase = .searching i := hi
      simp [hphase] at hcleaning
    · intro d i _ hd
      exact absurd hd (h.not_searching (by simp [hlock]))

/-! ## Steps of the handlers -/

theorem start_keeps {s : Registry} {l : List ℕ} (h : s.Inv l) {c : ℕ} {t : Registry}
    (hstep : registryStep s (.start c) = some t) : t.Inv l := by
  obtain ⟨hphase, ⟨⟩⟩ := Option.ite_none_right_eq_some.mp hstep
  have hcons := h.consistent c
  apply h.handler
  · simp [hphase]
  · rfl
  · rfl
  · rfl
  · simp [hphase]
  · simp [hphase]
  · refine ⟨?_, ?_, fun _ => rfl, fun _ => rfl, ?_⟩
    · simp [hcons.freed_eq, hphase]
    · simp [hcons.took_eq, hphase]
    · simp
  · show s.lock = some c ↔ _
    rw [h.lock, hphase]
    simp
  · exact fun _ _ => Iff.rfl
  · simp

theorem leave_keeps {s : Registry} {l : List ℕ} (h : s.Inv l) {c : ℕ} {t : Registry}
    (hstep : registryStep s (.leave c) = some t) : t.Inv l := by
  obtain ⟨hphase, ⟨⟩⟩ := Option.ite_none_right_eq_some.mp hstep
  apply h.handler
  · simp [hphase]
  · rfl
  · rfl
  · rfl
  · simp [hphase]
  · simp [hphase]
  · apply (h.consistent c).advance <;> simp [hphase]
  · show s.lock = some c ↔ _
    rw [h.lock, hphase]
    simp
  · exact fun _ _ => Iff.rfl
  · simp

theorem lock_keeps {s : Registry} {l : List ℕ} (h : s.Inv l) {c : ℕ}
    (hinserted : (s.connections c).inserted = true) {t : Registry}
    (hstep : registryStep s (.lock c) = some t) : t.Inv l := by
  obtain ⟨⟨hphase, hlock⟩, ⟨⟩⟩ := Option.ite_none_right_eq_some.mp hstep
  apply h.handler
  · simp [hphase]
  · rfl
  · rfl
  · rfl
  · simp [hphase]
  · simp [hphase]
  · apply (h.consistent c).advance <;> simp [hphase, hinserted]
  · simp
  · intro d hd
    simp [hlock, hd.symm]
  · intro i hi j hj
    injection hi with hi
    omega

/-- In a clean-up the own record is in `clients`, not before the place reached. -/
theorem Registry.Inv.searching_mem {s : Registry} {l : List ℕ} (h : s.Inv l) {c i : ℕ}
    (hphase : (s.connections c).phase = .searching i) : ∃ k, i ≤ k ∧ l[k]? = some c := by
  have hmem : c ∈ l := by
    rw [h.mem]
    exact ⟨(h.consistent c).inserted (by simp [hphase]), by simp [hphase]⟩
  obtain ⟨k, hk⟩ := List.mem_iff_getElem?.mp hmem
  refine ⟨k, ?_, hk⟩
  by_contra hlt
  exact h.search c i hphase k (by omega) hk

/-- A record in `clients` is not freed. -/
theorem Registry.Inv.not_freed {s : Registry} {l : List ℕ} (h : s.Inv l) {d : ℕ} (hd : d ∈ l) :
    (s.connections d).freed = false ∧
      ((s.connections d).phase = .created ∨
        (s.connections d).phase.isStarted = true ∧ (s.connections d).phase.isLive = true) := by
  obtain ⟨hinserted, hsearched⟩ := (h.mem d).mp hd
  have hspawned := (h.consistent d).spawned hinserted
  rw [(h.consistent d).freed_eq]
  revert hsearched hspawned
  cases (s.connections d).phase <;> simp

/-- Among the records in `clients` only the own one holds the thread's id. -/
theorem Registry.Inv.threadId_ne {s : Registry} {l : List ℕ} (h : s.Inv l) {c d i : ℕ}
    (hphase : (s.connections c).phase = .searching i) (hd : d ∈ l) (hdc : d ≠ c)
    (hjunk : (s.connections d).phase = .created →
      (s.connections d).threadId ≠ (s.connections c).threadId) :
    (s.connections d).threadId ≠ (s.connections c).threadId := by
  obtain ⟨-, hcreated | ⟨hstarted, hlive⟩⟩ := h.not_freed hd
  · exact hjunk hcreated
  · rw [(h.consistent d).threadId_eq hstarted, (h.consistent c).threadId_eq (by simp [hphase])]
    intro heq
    exact hdc (h.distinct d c hlive (by simp [hphase]) heq)

theorem compare_keeps {s : Registry} {l : List ℕ} (h : s.Inv l) {c junk : ℕ}
    (hok : CleansUpRegistered s (.compare c junk)) {t : Registry}
    (hstep : registryStep s (.compare c junk) = some t) : ∃ l', t.Inv l' := by
  unfold registryStep at hstep
  dsimp only at hstep
  split at hstep
  case h_2 => simp at hstep
  case h_1 i hphase =>
    obtain ⟨k, hik, hk⟩ := h.searching_mem hphase
    obtain ⟨hklt, -⟩ := List.getElem?_eq_some_iff.mp hk
    obtain ⟨d, hd⟩ : ∃ d, l[i]? = some d := ⟨l[i], List.getElem?_eq_getElem (by omega)⟩
    have hdl : d ∈ l := List.mem_iff_getElem?.mpr ⟨i, hd⟩
    obtain ⟨clients, hsize, hholds, hturn⟩ := searchTurn_holds h.holds hd
      fun d => s.readThreadId d junk == (s.connections c).threadId
    have hread : s.readThreadId d junk = (s.connections d).threadId :=
      if_neg (by simp [(h.not_freed hdl).1])
    rw [hturn, hread] at hstep
    have hcons := h.consistent c
    have hlock : s.lock = some c := by simp [h.lock, hphase]
    by_cases hdc : d = c
    -- the own record: it is taken out and moves behind the search
    · rw [hdc] at hstep hd
      simp only [beq_self_eq_true, if_true, Option.some.injEq] at hstep
      subst hstep
      refine ⟨_, h.update rfl h.defined hholds (hsize ▸ h.size_pos) (nodup_swapRemove h.nodup hd)
        ?_ ?_ ?_ (Nat.le_refl _) ?_ ?_ ?_ ?_ ?_ (fun _ _ => Iff.rfl) ?_ ?_⟩
      · intro e he
        simp [mem_swapRemove h.nodup hd, he]
      · simp [mem_swapRemove h.nodup hd]
      · refine ⟨?_, ?_, ?_, ?_, ?_⟩
        · simp [hcons.freed_eq, hphase]
        · simp [hcons.took_eq, hphase]
        · simpa [hphase] using hcons.threadId_eq
        · simp
        · simpa [hphase] using hcons.inserted
      · exact h.lt_next (by simp [hphase])
      · intro e he
        have hallocated := h.spawning e he
        have hec : e ≠ c := by
          rintro rfl
          simp [hphase] at hallocated
        show (Function.update s.connections c _ e).phase = .allocated
        rw [Function.update_of_ne hec, hallocated]
      · intro e he
        have hinserting := h.inserting e he
        have hec : e ≠ c := by
          rintro rfl
          simp [hcons.inserted (by simp [hphase])] at hinserting
        show (Function.update s.connections c _ e).inserted = false ∧
          (Function.update s.connections c _ e).phase.isSpawned = true
        rw [Function.update_of_ne hec]
        exact hinserting
      · intro _ e he hlive heq
        exact he (h.distinct e c hlive (by simp [hphase]) heq)
      · show s.lock = some c ↔ _
        simp [hlock]
      · simp
      · intro e j he hsearching
        exact absurd hsearching (h.not_searching (by simp [hlock, he.symm]))
    -- another record: the search goes on
    · have hne : ((s.connections d).threadId == (s.connections c).threadId) = false := by
        simpa using h.threadId_ne hphase hdl hdc (hok i d hphase (by
          rw [h.holds.at (by omega), hd]))
      rw [hne] at hstep
      injection hstep with hstep
      subst hstep
      refine ⟨l, ?_⟩
      apply h.handler
      · simp [hphase]
      · rfl
      · rfl
      · rfl
      · simp [hphase]
      · simp [hphase]
      · apply hcons.advance <;> simp [hphase, hcons.inserted]
      · simp [hlock]
      · exact fun _ _ => Iff.rfl
      · intro i' hi
        injection hi with hi
        rw [← hi]
        exact search_next (h.search c i hphase) hd hdc

theorem free_keeps {s : Registry} {l : List ℕ} (h : s.Inv l) {c : ℕ} {t : Registry}
    (hstep : registryStep s (.free c) = some t) : t.Inv l := by
  obtain ⟨hphase, ⟨⟩⟩ := Option.ite_none_right_eq_some.mp hstep
  have hcons := h.consistent c
  apply h.handler
  · simp [hphase]
  · rfl
  · rfl
  · rfl
  · simp [hphase]
  · simp [hphase]
  · refine ⟨rfl, ?_, ?_, ?_, ?_⟩
    · simp [hcons.took_eq, hphase]
    · simpa [hphase] using hcons.threadId_eq
    · simp
    · simpa [hphase] using hcons.inserted
  · show s.lock = some c ↔ _
    rw [h.lock, hphase]
    simp
  · exact fun _ _ => Iff.rfl
  · simp

theorem unlock_keeps {s : Registry} {l : List ℕ} (h : s.Inv l) {c : ℕ} {t : Registry}
    (hstep : registryStep s (.unlock c) = some t) : t.Inv l := by
  obtain ⟨hphase, ⟨⟩⟩ := Option.ite_none_right_eq_some.mp hstep
  have hcons := h.consistent c
  have hlock : s.lock = some c := by simp [h.lock, hphase]
  apply h.handler
  · simp [hphase]
  · rfl
  · rfl
  · rfl
  · simp [hphase]
  · simp [hphase]
  · apply hcons.advance <;> simp [hphase, hcons.inserted]
  · simp
  · intro d hd
    simp [hlock, hd.symm]
  · simp

/-! ## Runs -/

theorem initial_inv : Registry.initial.Inv [] := by
  refine ⟨rfl, vectorCreate_holds 10, by decide, List.nodup_nil, ?_, ?_, fun _ _ => rfl, ?_, ?_,
    ?_, ?_, ?_⟩
  · simp [Registry.initial]
  · intro c
    refine ⟨rfl, rfl, ?_, ?_, ?_⟩ <;> simp [Registry.initial]
  all_goals simp [Registry.initial]

theorem registryStep_keeps {s t : Registry} {a : RegistryAction} {l : List ℕ} (h : s.Inv l)
    (hok : CleansUpRegistered s a) (hstep : registryStep s a = some t) : ∃ l', t.Inv l' := by
  cases a with
  | malloc junk => exact ⟨l, malloc_keeps h hstep⟩
  | refuse => exact ⟨l, refuse_keeps h hstep⟩
  | spawn self => exact ⟨l, spawn_keeps h hstep⟩
  | insert mem => exact insert_keeps h hok hstep
  | start c => exact ⟨l, start_keeps h hstep⟩
  | serve c =>
    obtain ⟨-, ⟨⟩⟩ := Option.ite_none_right_eq_some.mp hstep
    exact ⟨l, h⟩
  | leave c => exact ⟨l, leave_keeps h hstep⟩
  | lock c => exact ⟨l, lock_keeps h hok hstep⟩
  | compare c junk => exact compare_keeps h hok hstep
  | free c => exact ⟨l, free_keeps h hstep⟩
  | unlock c => exact ⟨l, unlock_keeps h hstep⟩

theorem Registry.Inv.registered_iff {s : Registry} {l : List ℕ} (h : s.Inv l) (c : ℕ) :
    s.Registered c ↔ c ∈ l := by
  have hcount := h.holds.count_eq
  constructor
  · rintro ⟨i, hi, hat⟩
    rw [h.holds.at (by omega), Option.some.injEq] at hat
    exact List.mem_iff_getElem?.mpr ⟨i, hat⟩
  · intro hc
    obtain ⟨i, hi⟩ := List.mem_iff_getElem?.mp hc
    obtain ⟨hlt, -⟩ := List.getElem?_eq_some_iff.mp hi
    exact ⟨i, by omega, by rw [h.holds.at hlt, hi]⟩

theorem Registry.Inv.sound {s : Registry} {l : List ℕ} (h : s.Inv l) : s.Sound := by
  refine ⟨h.defined, ?_, ?_, ?_, ?_⟩
  · intro i hi
    rw [h.holds.count_eq] at hi
    refine ⟨l[i], ?_, (h.not_freed (List.getElem_mem hi)).1⟩
    rw [h.holds.at hi, List.getElem?_eq_getElem hi]
  · intro c hc
    rw [(h.consistent c).took_eq, if_pos hc]
  · intro c hins hc
    rw [h.registered_iff, h.mem]
    exact ⟨hins, hc⟩
  · intro c _ hc
    rw [h.registered_iff, h.mem, hc]
    simp

/-- In every state of every run of steps that meet the condition, `clients` holds
    no freed record and each clean-up has removed its own record only. -/
theorem registry_sound (s : Registry) (hs : RegistryReaches CleansUpRegistered s) : s.Sound := by
  have hinv : ∃ l, s.Inv l := by
    refine hs.invariant (P := fun s => ∃ l, s.Inv l) ?_ ?_
    · rintro s rfl
      exact ⟨[], initial_inv⟩
    · rintro s a t ⟨l, h⟩ hok hstep
      exact registryStep_keeps h hok hstep
  obtain ⟨l, h⟩ := hinv
  exact h.sound

/-- A connection that ends with its record inserted. -/
def lateEnd : List RegistryAction :=
  [.malloc 0, .spawn 7, .insert none, .start 0, .serve 0, .leave 0, .lock 0, .compare 0 0, .free 0,
    .unlock 0]

theorem registry_sound_lateEnd :
    ∃ s, run registryStep Registry.initial lateEnd = some s ∧ s.Sound := by
  obtain ⟨s, hrun⟩ : ∃ s, run registryStep Registry.initial lateEnd = some s := ⟨_, rfl⟩
  refine ⟨s, hrun, registry_sound s (run_reaches (.init rfl) ?_ hrun)⟩
  have hroom : (vectorCreate 10 : Vector ℕ).HasRoom := by decide
  refine ⟨trivial, trivial, hroom, trivial, trivial, trivial, rfl, ?_, trivial, trivial, trivial⟩
  rintro i d hi hat hcreated
  injection hi with hi
  subst hi
  injection hat with hat
  injection hat with hat
  subst hat
  exact absurd hcreated (by decide)

/-- The early end of a first connection: its handler is through before `main`
    inserts the record. -/
def earlyEnd : List RegistryAction :=
  [.malloc 0, .spawn 7, .start 0, .leave 0, .lock 0, .compare 0 0, .free 0, .unlock 0, .insert none]

/-- Then `clients` holds a freed record. -/
theorem registry_holds_freed : ¬ ∀ s, RegistryReaches (fun _ _ => True) s → s.Sound := by
  intro h
  obtain ⟨s, hrun⟩ : ∃ s, run registryStep Registry.initial earlyEnd = some s := ⟨_, rfl⟩
  have hsound := h s (run_reaches (.init rfl) (along_trivial _ _) hrun)
  injection hrun with hrun
  obtain ⟨c, hat, hfreed⟩ := hsound.live 0 (by rw [← hrun]; decide)
  rw [← hrun] at hat hfreed
  injection hat with hat
  injection hat with hat
  rw [← hat] at hfreed
  exact absurd hfreed (by decide)

end Memuncached.Server
