import Memuncached.Lib.CallTree
import Memuncached.Lib.Transitions

/-!
# Interleaved commands

Clients that each carry out commands on one shared state, a command being a
`CallTree` of atomic calls at one location. A step is one call of one client,
so that the commands of different clients interleave at their calls.

A history is linearizable (`Threads.Linearizable`) when its commands, executed
one at a time in an order that respects which of them ended before which began,
give the same replies and leave the same shared state.

* `Threads.step_cases`: what a step does.
* `Threads.linearizable_of_along`: a history is linearizable when no step of it
  disturbs a command of another client (`Threads.Undisturbed`).
* `Threads.Linearizable.replaysAt`: its commands at one location, by themselves.
* `Threads.ReplaysAt.forall`: what each of them keeps there, and says of its
  reply, holds of all.
-/

namespace Interleave

/-! ## States and steps -/

/-- A command that has ended. A time is a number of calls made: those before its
    first call, and those up to its last one. -/
structure Op (ι K α : Type) where
  client : ι
  cmd : K
  start : ℕ
  finish : ℕ
  reply : α
  deriving DecidableEq

/-- A command in progress: when it began and what its location held then, and
    the calls it has left to make. -/
structure Pending {C : Type} (Res : C → Type) (α V K : Type) where
  cmd : K
  start : ℕ
  before : V
  rest : CallTree Res α

/-- The shared state, the number of calls made, the command each client is at
    and the commands that have ended, the last one first. -/
structure State {C : Type} (Res : C → Type) (α S V K ι : Type) where
  shared : S
  time : ℕ
  current : ι → Option (Pending Res α V K)
  done : List (Op ι K α)

/-- A client makes the first call of a command, or the next one of its command. -/
inductive Action (ι K : Type) where
  | start (client : ι) (cmd : K)
  | next (client : ι)

/-- The client that acts. -/
def Action.client {ι K : Type} : Action ι K → ι
  | start client _ => client
  | next client => client

/-- What the commands are and what a call does, as a whole and at the location
    of a command. -/
structure Threads {C : Type} (Res : C → Type) (α S L V K : Type) where
  exec : (c : C) → S → Res c × S
  execAt : (c : C) → V → Res c × V
  view : S → L → V
  prog : K → CallTree Res α
  place : K → L

variable {C : Type} {Res : C → Type} {α S L V K ι : Type}

/-- Make the first call of a program. -/
def advance (exec : (c : C) → S → Res c × S) : CallTree Res α → S → CallTree Res α × S
  | .ret a, s => (.ret a, s)
  | .call c k, s => (k (exec c s).1, (exec c s).2)

namespace State

/-- No command has begun. -/
def initial (shared : S) : State Res α S V K ι where
  shared := shared
  time := 0
  current := fun _ => none
  done := []

/-- No client is at a command. -/
def Complete (s : State Res α S V K ι) : Prop := ∀ i, s.current i = none

variable [DecidableEq ι]

/-- The client's command makes a call, which leaves `rest` to do. -/
def called (s : State Res α S V K ι) (i : ι) (p : Pending Res α V K) (rest : CallTree Res α)
    (shared : S) : State Res α S V K ι :=
  { s with
    shared := shared
    time := s.time + 1
    current := Function.update s.current i (some { p with rest := rest }) }

/-- A command with no call left has ended with its last one. -/
def ended (s : State Res α S V K ι) (i : ι) (p : Pending Res α V K) (reply : α) :
    State Res α S V K ι :=
  { s with
    current := Function.update s.current i none
    done := { client := i, cmd := p.cmd, start := p.start, finish := s.time, reply := reply }
      :: s.done }

end State

namespace Threads

variable (T : Threads Res α S L V K)

/-- The command whose call it is, before the call; `none` when a client starts a
    command while it is at another, or has none to go on with. -/
def acting (s : State Res α S V K ι) : Action ι K → Option (Pending Res α V K)
  | .start i cmd =>
    match s.current i with
    | some _ => none
    | none =>
      some { cmd := cmd, start := s.time, before := T.view s.shared (T.place cmd),
             rest := T.prog cmd }
  | .next i => s.current i

/-- One call of one client. -/
def step [DecidableEq ι] (s : State Res α S V K ι) (a : Action ι K) : Option (State Res α S V K ι) :=
  (T.acting s a).map fun p =>
    let (rest, shared) := advance T.exec p.rest s.shared
    let s := s.called a.client p rest shared
    match rest with
    | .ret reply => s.ended a.client p reply
    | .call _ _ => s

/-! ## Linearizability -/

/-- Executed one at a time from `s` the commands give their replies and leave `s'`. -/
def Replays : S → List (Op ι K α) → S → Prop
  | s, [], s' => s = s'
  | s, op :: ops, s' =>
    (CallTree.run T.exec (T.prog op.cmd) s).1 = op.reply ∧
      Replays (CallTree.run T.exec (T.prog op.cmd) s).2 ops s'

/-- No command stands behind one that began after it had ended. -/
def RealTime (ops : List (Op ι K α)) : Prop := ops.Pairwise fun a b => ¬ b.finish ≤ a.start

/-- Some order of the commands that have ended, consistent with their times, gives
    their replies and the shared state. -/
def Linearizable (s₀ : S) (s : State Res α S V K ι) : Prop :=
  ∃ order : List (Op ι K α), order.Perm s.done ∧ RealTime order ∧ T.Replays s₀ order s.shared

/-- Run from the value `v` of its location, the program changes it no more. -/
def Settled (execAt : (c : C) → V → Res c × V) : CallTree Res α → V → Prop
  | .ret _, _ => True
  | .call c k, v => (execAt c v).2 = v ∧ Settled execAt (k (execAt c v).1) v

/-- The call disturbs no command of another client that is in progress at the
    same location: it leaves the location as it is, and the other command has
    left it as it was or changes it no more. -/
def Undisturbed (s : State Res α S V K ι) (a : Action ι K) : Prop :=
  ∀ p, T.acting s a = some p → ∀ j q, j ≠ a.client → s.current j = some q →
    T.place q.cmd = T.place p.cmd →
    T.view (advance T.exec p.rest s.shared).2 (T.place p.cmd) = T.view s.shared (T.place p.cmd) ∧
    (T.view s.shared (T.place q.cmd) = q.before ∨
      Settled T.execAt q.rest (T.view s.shared (T.place q.cmd)))

end Threads

namespace Threads

/-! ## One step -/

/-- Calls act locally, and those of a command at its location. -/
structure Local (T : Threads Res α S L V K) (inv : S → Prop) (loc : C → L) : Prop where
  locality : CallTree.Locality T.exec inv loc T.view T.execAt
  calls : ∀ cmd, CallTree.Calls (fun c => loc c = T.place cmd) (T.prog cmd)

variable {T : Threads Res α S L V K} {inv : S → Prop} {loc : C → L}

theorem run_advance (exec : (c : C) → S → Res c × S) (p : CallTree Res α) (s : S) :
    CallTree.run exec (advance exec p s).1 (advance exec p s).2 = CallTree.run exec p s := by
  cases p with
  | ret a => rfl
  | call c k => rfl

/-- What one call of a program at location `l` does. -/
theorem advance_local (h : CallTree.Locality T.exec inv loc T.view T.execAt) {l : L}
    {p : CallTree Res α} (hp : CallTree.Calls (fun c => loc c = l) p) {s : S} (hs : inv s) :
    inv (advance T.exec p s).2 ∧
    (advance T.exec p s).1 = (advance T.execAt p (T.view s l)).1 ∧
    CallTree.Calls (fun c => loc c = l) (advance T.exec p s).1 ∧
    T.view (advance T.exec p s).2 l = (advance T.execAt p (T.view s l)).2 ∧
    ∀ l' ≠ l, T.view (advance T.exec p s).2 l' = T.view s l' := by
  cases p with
  | ret a => exact ⟨hs, rfl, trivial, rfl, fun _ _ => rfl⟩
  | call c k =>
    obtain ⟨rfl, hk⟩ := hp
    refine ⟨h.inv_exec c s hs, ?_, hk _, h.view_self c s hs, fun l' hl' => h.view_ne c s l' hs hl'⟩
    show k (T.exec c s).1 = k (T.execAt c (T.view s (loc c))).1
    rw [h.result c s hs]

theorem Settled.advance {execAt : (c : C) → V → Res c × V} {p : CallTree Res α} {v : V}
    (h : Settled execAt p v) :
    (Interleave.advance execAt p v).2 = v ∧ Settled execAt (Interleave.advance execAt p v).1 v := by
  cases p with
  | ret a => exact ⟨rfl, trivial⟩
  | call c k => exact h

/-- A settled program leaves its location as it is. -/
theorem Settled.run {execAt : (c : C) → V → Res c × V} {p : CallTree Res α} {v : V}
    (h : Settled execAt p v) : (CallTree.runAt execAt p v).2 = v := by
  induction p with
  | ret a => rfl
  | call c k ih =>
    obtain ⟨hv, hk⟩ := h
    show (CallTree.runAt execAt (k (execAt c v).1) (execAt c v).2).2 = v
    rw [hv]
    exact ih _ hk

/-- A client that starts a command is at no other. -/
theorem acting_start {s : State Res α S V K ι} {i : ι} {cmd : K} {p : Pending Res α V K}
    (h : T.acting s (.start i cmd) = some p) :
    s.current i = none ∧
      p = { cmd := cmd, start := s.time, before := T.view s.shared (T.place cmd),
            rest := T.prog cmd } := by
  cases hcur : s.current i with
  | some q =>
    simp only [acting, hcur] at h
    cases h
  | none =>
    simp only [acting, hcur] at h
    exact ⟨rfl, (Option.some.inj h).symm⟩

/-- The command a client is at is the one that acts. -/
theorem acting_current {s : State Res α S V K ι} {a : Action ι K} {p q : Pending Res α V K}
    (h : T.acting s a = some p) (hq : s.current a.client = some q) : q = p := by
  cases a with
  | start client cmd =>
    have hidle : s.current client = none := (acting_start h).1
    rw [show s.current client = some q from hq] at hidle
    cases hidle
  | next client => exact Option.some.inj (hq.symm.trans h)

/-- A step makes a call, and ends the command if it was the last one. -/
theorem step_cases [DecidableEq ι] {s t : State Res α S V K ι} {a : Action ι K} (h : T.step s a = some t) :
    ∃ p, T.acting s a = some p ∧
      let called := s.called a.client p (advance T.exec p.rest s.shared).1
        (advance T.exec p.rest s.shared).2
      (t = called ∨
        ∃ reply, (advance T.exec p.rest s.shared).1 = .ret reply ∧
          t = called.ended a.client p reply) := by
  obtain ⟨p, hp, ht⟩ := Option.map_eq_some_iff.mp h
  refine ⟨p, hp, ?_⟩
  dsimp only at ht ⊢
  generalize (advance T.exec p.rest s.shared).1 = rest at ht ⊢
  cases rest with
  | ret reply => exact Or.inr ⟨reply, rfl, ht.symm⟩
  | call c k => exact Or.inl ht.symm

/-! ## The order in which commands take effect -/

theorem Replays.append {s s' : S} {ops : List (Op ι K α)} (h : T.Replays s ops s') {op : Op ι K α}
    (hop : (CallTree.run T.exec (T.prog op.cmd) s').1 = op.reply) :
    T.Replays s (ops ++ [op]) (CallTree.run T.exec (T.prog op.cmd) s').2 := by
  induction ops generalizing s with
  | nil =>
    obtain rfl : s = s' := h
    exact ⟨hop, rfl⟩
  | cons o ops ih => exact ⟨h.1, ih h.2⟩

/-- The command `op` is `e`, which took effect with the call at `e.finish`. -/
def Extends (e op : Op ι K α) : Prop := e.finish ≤ op.finish ∧ op = { e with finish := op.finish }

/-- A command that has taken effect as `e` and has calls left that change nothing;
    `v` is the value of its location. -/
structure Taken (T : Threads Res α S L V K) (v : V) (e : Op ι K α) (p : Pending Res α V K) :
    Prop where
  settled : Settled T.execAt p.rest v
  cmd : e.cmd = p.cmd
  start : e.start = p.start
  reply : e.reply = (CallTree.runAt T.execAt p.rest v).1

/-- A command that has not taken effect; `v` is the value of its location and `w`
    the value after the commands that have. -/
structure Owing (T : Threads Res α S L V K) (v w : V) (p : Pending Res α V K) : Prop where
  unsettled : ¬ Settled T.execAt p.rest v
  before : w = p.before
  run : CallTree.runAt T.execAt p.rest v = CallTree.runAt T.execAt (T.prog p.cmd) w

/-- The commands that have taken effect, in that order, are `log`; those of them
    that have ended are `fin`, the others `pend`. Executed one at a time they
    leave `seq`. -/
structure Logged (T : Threads Res α S L V K) (inv : S → Prop) (s₀ : S)
    (s : State Res α S V K ι) (seq : S) (log fin pend : List (Op ι K α)) : Prop where
  replays : T.Replays s₀ log seq
  inv_seq : inv seq
  sorted : log.Pairwise fun a b => a.finish < b.finish
  within : ∀ e ∈ log, e.start < e.finish ∧ e.finish ≤ s.time
  perm : log.Perm (fin ++ pend)
  ended : List.Forall₂ Extends fin s.done

/-- The commands in progress: those of `pend` have taken effect, the others not. -/
structure InProgress (T : Threads Res α S L V K) (inv : S → Prop) (loc : C → L)
    (s : State Res α S V K ι) (seq : S) (pend : List (Op ι K α)) : Prop where
  inv_shared : inv s.shared
  pend_nodup : (pend.map Op.client).Nodup
  taken : ∀ e ∈ pend, ∃ p, s.current e.client = some p ∧
    T.Taken (T.view s.shared (T.place p.cmd)) e p
  owing : ∀ i p, s.current i = some p → i ∉ pend.map Op.client →
    T.Owing (T.view s.shared (T.place p.cmd)) (T.view seq (T.place p.cmd)) p
  calls : ∀ i p, s.current i = some p → CallTree.Calls (fun c => loc c = T.place p.cmd) p.rest
  start_lt : ∀ i p, s.current i = some p → p.start < s.time
  -- a location differs only while one command is between its changes, alone there
  agree : ∀ l, T.view s.shared l = T.view seq l ∨
    ∃ i p, s.current i = some p ∧ T.place p.cmd = l ∧ i ∉ pend.map Op.client ∧
      ∀ j q, s.current j = some q → T.place q.cmd = l → j = i

/-! ## The invariant of a step -/

section Step

variable {s₀ : S} {s : State Res α S V K ι} {seq : S} {log fin pend : List (Op ι K α)}
  {a : Action ι K} {p : Pending Res α V K}

/-- A location at which a call is made does not differ, unless the acting command
    has changed it and is alone there. -/
theorem InProgress.agree_acting (h : InProgress T inv loc s seq pend)
    (hp : T.acting s a = some p) (hok : T.Undisturbed s a) :
    T.view s.shared (T.place p.cmd) = T.view seq (T.place p.cmd) ∨
      (s.current a.client = some p ∧ a.client ∉ pend.map Op.client ∧
        ∀ j q, s.current j = some q → T.place q.cmd = T.place p.cmd → j = a.client) := by
  rcases h.agree (T.place p.cmd) with heq | ⟨i, q, hq, hplace, hi, halone⟩
  · exact Or.inl heq
  by_cases hia : i = a.client
  · subst hia
    obtain rfl := acting_current hp hq
    exact Or.inr ⟨hq, hi, halone⟩
  · left
    have howing := h.owing i q hq hi
    rcases (hok p hp i q hia hq hplace).2 with hbefore | hsettled
    · rw [← hplace, hbefore, howing.before]
    · exact absurd hsettled howing.unsettled

/-- The command that acts, before its call. -/
theorem InProgress.acting_cases (hT : Local T inv loc) (h : InProgress T inv loc s seq pend)
    (hp : T.acting s a = some p) (hok : T.Undisturbed s a) :
    CallTree.Calls (fun c => loc c = T.place p.cmd) p.rest ∧ p.start ≤ s.time ∧
      ((∃ e ∈ pend, e.client = a.client ∧ T.Taken (T.view s.shared (T.place p.cmd)) e p) ∨
        (a.client ∉ pend.map Op.client ∧ T.view seq (T.place p.cmd) = p.before ∧
          CallTree.runAt T.execAt p.rest (T.view s.shared (T.place p.cmd)) =
            CallTree.runAt T.execAt (T.prog p.cmd) (T.view seq (T.place p.cmd)))) := by
  cases a with
  | start client cmd =>
    have hagree := h.agree_acting hp hok
    obtain ⟨hidle, rfl⟩ := acting_start hp
    have hnot : client ∉ pend.map Op.client := by
      intro hmem
      obtain ⟨e, he, rfl⟩ := List.mem_map.mp hmem
      obtain ⟨q, hq, -⟩ := h.taken e he
      rw [hidle] at hq
      cases hq
    have heq : T.view s.shared (T.place cmd) = T.view seq (T.place cmd) := by
      rcases hagree with heq | ⟨hq, -⟩
      · exact heq
      · rw [show s.current (Action.start client cmd).client = none from hidle] at hq
        cases hq
    exact ⟨hT.calls cmd, le_refl _, Or.inr ⟨hnot, heq.symm, by rw [heq]⟩⟩
  | next client =>
    refine ⟨h.calls client p hp, (h.start_lt client p hp).le, ?_⟩
    by_cases hmem : client ∈ pend.map Op.client
    · left
      obtain ⟨e, he, rfl⟩ := List.mem_map.mp hmem
      obtain ⟨q, hq, htaken⟩ := h.taken e he
      obtain rfl : q = p := Option.some.inj (hq.symm.trans hp)
      exact ⟨e, he, rfl, htaken⟩
    · have howing := h.owing client p hp hmem
      exact Or.inr ⟨hmem, howing.before, howing.run⟩

/-- The call leaves the location of every other command as it is. -/
theorem InProgress.view_called (hT : Local T inv loc) (h : InProgress T inv loc s seq pend)
    (hp : T.acting s a = some p) (hok : T.Undisturbed s a)
    (hcalls : CallTree.Calls (fun c => loc c = T.place p.cmd) p.rest)
    {j : ι} {q : Pending Res α V K} (hj : j ≠ a.client) (hq : s.current j = some q) :
    T.view (advance T.exec p.rest s.shared).2 (T.place q.cmd) =
      T.view s.shared (T.place q.cmd) := by
  by_cases hplace : T.place q.cmd = T.place p.cmd
  · rw [hplace]
    exact (hok p hp j q hj hq hplace).1
  · exact (advance_local hT.locality hcalls h.inv_shared).2.2.2.2 _ hplace

end Step

section Called

variable [DecidableEq ι] {s₀ : S} {s : State Res α S V K ι} {seq : S}
  {log fin pend : List (Op ι K α)} {a : Action ι K} {p : Pending Res α V K}

/-- The state after the call of the command `p`. -/
def called (T : Threads Res α S L V K) (s : State Res α S V K ι) (i : ι)
    (p : Pending Res α V K) : State Res α S V K ι :=
  s.called i p (advance T.exec p.rest s.shared).1 (advance T.exec p.rest s.shared).2

/-- The command `p` after its call. -/
def advanced (T : Threads Res α S L V K) (s : State Res α S V K ι) (p : Pending Res α V K) :
    Pending Res α V K :=
  { p with rest := (advance T.exec p.rest s.shared).1 }

/-- The commands in progress behind a call: the one that has advanced, and the
    others as they were. -/
theorem called_current {c i : ι} {q : Pending Res α V K}
    (hq : (T.called s c p).current i = some q) :
    (i = c ∧ q = T.advanced s p) ∨ (i ≠ c ∧ s.current i = some q) := by
  by_cases hi : i = c
  · subst hi
    exact Or.inl ⟨rfl, Option.some.inj (hq.symm.trans (Function.update_self _ _ _))⟩
  · exact Or.inr ⟨hi, (Function.update_of_ne hi _ _).symm.trans hq⟩

/-- What a call that takes effect for no command keeps, or the first of the calls
    with which `p` takes effect: what remains to show for the acting command. -/
theorem InProgress.call (hT : Local T inv loc) (h : InProgress T inv loc s seq pend)
    (hp : T.acting s a = some p) (hok : T.Undisturbed s a) {seq' : S} {pend' : List (Op ι K α)}
    (hnodup : (pend'.map Op.client).Nodup)
    (hpend : ∀ e, e.client ≠ a.client → (e ∈ pend' ↔ e ∈ pend))
    (hseq : ∀ l, l ≠ T.place p.cmd → T.view seq' l = T.view seq l)
    (hseq_self : ∀ j q, j ≠ a.client → s.current j = some q → j ∉ pend.map Op.client →
      T.place q.cmd = T.place p.cmd →
      T.view seq' (T.place p.cmd) = T.view seq (T.place p.cmd))
    (htaken : ∀ e ∈ pend', e.client = a.client →
      T.Taken (T.view (T.called s a.client p).shared (T.place p.cmd)) e (T.advanced s p))
    (howing : a.client ∉ pend'.map Op.client →
      T.Owing (T.view (T.called s a.client p).shared (T.place p.cmd))
        (T.view seq' (T.place p.cmd)) (T.advanced s p))
    (hagree : T.view (T.called s a.client p).shared (T.place p.cmd) = T.view seq' (T.place p.cmd) ∨
      (a.client ∉ pend'.map Op.client ∧
        ∀ j q, s.current j = some q → T.place q.cmd = T.place p.cmd → j = a.client)) :
    InProgress T inv loc (T.called s a.client p) seq' pend' := by
  obtain ⟨hcalls, hstart, -⟩ := h.acting_cases hT hp hok
  obtain ⟨hinv, -, hrest, -, hframe⟩ := advance_local hT.locality hcalls h.inv_shared
  -- the acting client and the others
  have hself : (T.called s a.client p).current a.client = some (T.advanced s p) :=
    Function.update_self _ _ _
  have hother : ∀ j, j ≠ a.client → (T.called s a.client p).current j = s.current j :=
    fun j hj => Function.update_of_ne hj _ _
  have hview : ∀ j q, j ≠ a.client → s.current j = some q →
      T.view (T.called s a.client p).shared (T.place q.cmd) =
        T.view s.shared (T.place q.cmd) :=
    fun j q hj hq => h.view_called hT hp hok hcalls hj hq
  have hmem : ∀ j, j ≠ a.client → (j ∈ pend'.map Op.client ↔ j ∈ pend.map Op.client) := by
    intro j hj
    constructor
    · intro hin
      obtain ⟨e, he, rfl⟩ := List.mem_map.mp hin
      exact List.mem_map_of_mem ((hpend e hj).mp he)
    · intro hin
      obtain ⟨e, he, rfl⟩ := List.mem_map.mp hin
      exact List.mem_map_of_mem ((hpend e hj).mpr he)
  refine ⟨hinv, hnodup, fun e he => ?_, fun i q hq hi => ?_, fun i q hq => ?_, fun i q hq => ?_,
    fun l => ?_⟩
  · by_cases hea : e.client = a.client
    · exact ⟨T.advanced s p, hea ▸ hself, htaken e he hea⟩
    · obtain ⟨q, hq, ht⟩ := h.taken e ((hpend e hea).mp he)
      rw [← hview _ q hea hq] at ht
      exact ⟨q, (hother _ hea).trans hq, ht⟩
  · rcases called_current hq with ⟨rfl, rfl⟩ | ⟨hia, hq⟩
    · exact howing hi
    · have hi' := mt (hmem i hia).mpr hi
      have hseqi : T.view seq' (T.place q.cmd) = T.view seq (T.place q.cmd) := by
        by_cases hplace : T.place q.cmd = T.place p.cmd
        · rw [hplace]
          exact hseq_self i q hia hq hi' hplace
        · exact hseq _ hplace
      rw [hview i q hia hq, hseqi]
      exact h.owing i q hq hi'
  · rcases called_current hq with ⟨-, rfl⟩ | ⟨-, hq⟩
    · exact hrest
    · exact h.calls i q hq
  · show q.start < s.time + 1
    rcases called_current hq with ⟨-, rfl⟩ | ⟨-, hq⟩
    · exact Nat.lt_succ_of_le hstart
    · exact Nat.lt_succ_of_lt (h.start_lt i q hq)
  · by_cases hl : l = T.place p.cmd
    · subst hl
      rcases hagree with heq | ⟨hnot, halone⟩
      · exact Or.inl heq
      · refine Or.inr ⟨a.client, _, hself, rfl, hnot, fun j q hq hplace => ?_⟩
        rcases called_current hq with ⟨hj, -⟩ | ⟨-, hq⟩
        · exact hj
        · exact halone j q hq hplace
    · have hviewl : T.view (T.called s a.client p).shared l = T.view s.shared l := hframe l hl
      rw [hviewl, hseq l hl]
      rcases h.agree l with heq | ⟨i, q, hq, rfl, hi, halone⟩
      · exact Or.inl heq
      · have hia : i ≠ a.client := by
          rintro rfl
          rw [acting_current hp hq] at hl
          exact hl rfl
        refine Or.inr ⟨i, q, (hother i hia).trans hq, rfl, mt (hmem i hia).mp hi,
          fun j r hr hplace => ?_⟩
        rcases called_current hr with ⟨-, rfl⟩ | ⟨-, hr⟩
        · exact absurd hplace.symm hl
        · exact halone j r hr hplace

/-- The command that acts had taken effect before its call. -/
theorem InProgress.call_taken (hT : Local T inv loc) (h : InProgress T inv loc s seq pend)
    (hp : T.acting s a = some p) (hok : T.Undisturbed s a) {e : Op ι K α} (he : e ∈ pend)
    (hclient : e.client = a.client) (ht : T.Taken (T.view s.shared (T.place p.cmd)) e p) :
    InProgress T inv loc (T.called s a.client p) seq pend := by
  obtain ⟨hcalls, -, -⟩ := h.acting_cases hT hp hok
  obtain ⟨-, hrest, -, hview, -⟩ := advance_local hT.locality hcalls h.inv_shared
  have hin : a.client ∈ pend.map Op.client := hclient ▸ List.mem_map_of_mem he
  have hself : T.view (T.called s a.client p).shared (T.place p.cmd) =
      T.view s.shared (T.place p.cmd) := hview.trans ht.settled.advance.1
  refine h.call hT hp hok h.pend_nodup (fun _ _ => Iff.rfl) (fun _ _ => rfl)
    (fun _ _ _ _ _ _ => rfl) (fun e' he' hclient' => ?_) (fun hnot => absurd hin hnot) ?_
  · obtain rfl : e' = e :=
      List.inj_on_of_nodup_map h.pend_nodup he' he (hclient'.trans hclient.symm)
    rw [hself]
    refine ⟨?_, ht.cmd, ht.start, ?_⟩
    · show Settled T.execAt (advance T.exec p.rest s.shared).1 _
      rw [hrest]
      exact ht.settled.advance.2
    · show e'.reply = (CallTree.runAt T.execAt (advance T.exec p.rest s.shared).1 _).1
      have hrun := run_advance T.execAt p.rest (T.view s.shared (T.place p.cmd))
      rw [ht.settled.advance.1] at hrun
      rw [hrest, CallTree.runAt, hrun]
      exact ht.reply
  · left
    rcases h.agree_acting hp hok with heq | ⟨-, hnot, -⟩
    · exact hself.trans heq
    · exact absurd hin hnot

/-- The command that acts has not taken effect, nor does it with its call. -/
theorem InProgress.call_owing (hT : Local T inv loc) (h : InProgress T inv loc s seq pend)
    (hp : T.acting s a = some p) (hok : T.Undisturbed s a) (hnot : a.client ∉ pend.map Op.client)
    (ho : T.Owing (T.view (T.called s a.client p).shared (T.place p.cmd))
      (T.view seq (T.place p.cmd)) (T.advanced s p)) :
    InProgress T inv loc (T.called s a.client p) seq pend := by
  refine h.call hT hp hok h.pend_nodup (fun _ _ => Iff.rfl) (fun _ _ => rfl)
    (fun _ _ _ _ _ _ => rfl) (fun e he hclient => ?_) (fun _ => ho) ?_
  · exact absurd (hclient ▸ List.mem_map_of_mem he) hnot
  · by_cases heq : T.view (T.called s a.client p).shared (T.place p.cmd) =
        T.view seq (T.place p.cmd)
    · exact Or.inl heq
    · refine Or.inr ⟨hnot, fun j q hq hplace => ?_⟩
      by_contra hj
      -- another command at the location lets it be changed by none
      have hkeep : T.view (T.called s a.client p).shared (T.place p.cmd) =
          T.view s.shared (T.place p.cmd) := (hok p hp j q hj hq hplace).1
      rcases h.agree_acting hp hok with hsame | ⟨-, -, halone⟩
      · exact heq (hkeep.trans hsame)
      · exact hj (halone j q hq hplace)

/-- The command that acts takes effect with its call, as `e`. -/
theorem InProgress.call_commit (hT : Local T inv loc) (h : InProgress T inv loc s seq pend)
    (hp : T.acting s a = some p) (hok : T.Undisturbed s a) (hnot : a.client ∉ pend.map Op.client)
    {e : Op ι K α} (hclient : e.client = a.client)
    (ht : T.Taken (T.view (T.called s a.client p).shared (T.place p.cmd)) e (T.advanced s p))
    {seq' : S} (hseq : ∀ l, l ≠ T.place p.cmd → T.view seq' l = T.view seq l)
    (hself : T.view seq' (T.place p.cmd) =
      T.view (T.called s a.client p).shared (T.place p.cmd)) :
    InProgress T inv loc (T.called s a.client p) seq' (e :: pend) := by
  refine h.call hT hp hok ?_ (fun e' he' => ?_) hseq (fun j q hj hq hi hplace => ?_)
    (fun e' he' hclient' => ?_) (fun hnot' => ?_) (Or.inl hself.symm)
  · rw [List.map_cons, hclient]
    exact List.nodup_cons.mpr ⟨hnot, h.pend_nodup⟩
  · constructor
    · intro hmem
      rcases List.mem_cons.mp hmem with rfl | hmem
      · exact absurd hclient he'
      · exact hmem
    · exact fun hmem => List.mem_cons_of_mem _ hmem
  · -- a command that has not taken effect sees the value it began with
    obtain ⟨hkeep, hbefore | hsettled⟩ := hok p hp j q hj hq hplace
    · have howing := (h.owing j q hq hi).before
      rw [hplace] at howing hbefore
      rw [hself, howing, ← hbefore]
      exact hkeep
    · exact absurd hsettled (h.owing j q hq hi).unsettled
  · rcases List.mem_cons.mp he' with rfl | hmem
    · exact ht
    · exact absurd (hclient' ▸ List.mem_map_of_mem hmem) hnot
  · exact absurd (List.mem_map.mpr ⟨e, List.mem_cons_self, hclient⟩) hnot'

/-- A call with which no command takes effect adds nothing to the log. -/
theorem Logged.called (h : Logged T inv s₀ s seq log fin pend) :
    Logged T inv s₀ (T.called s a.client p) seq log fin pend where
  replays := h.replays
  inv_seq := h.inv_seq
  sorted := h.sorted
  within e he := ⟨(h.within e he).1, Nat.le_succ_of_le (h.within e he).2⟩
  perm := h.perm
  ended := h.ended

/-- A call with which a command takes effect adds it to the log. -/
theorem Logged.commit (hT : Local T inv loc) (h : Logged T inv s₀ s seq log fin pend)
    {e : Op ι K α} (hstart : e.start ≤ s.time) (hfinish : e.finish = s.time + 1)
    (hreply : (CallTree.run T.exec (T.prog e.cmd) seq).1 = e.reply) :
    Logged T inv s₀ (T.called s a.client p) (CallTree.run T.exec (T.prog e.cmd) seq).2
      (log ++ [e]) fin (e :: pend) where
  replays := h.replays.append hreply
  inv_seq := CallTree.inv_run hT.locality _ h.inv_seq
  sorted := by
    refine List.pairwise_append.mpr ⟨h.sorted, List.pairwise_singleton _ _, fun b hb c hc => ?_⟩
    obtain rfl := List.mem_singleton.mp hc
    have := (h.within b hb).2
    omega
  within b hb := by
    show b.start < b.finish ∧ b.finish ≤ s.time + 1
    rcases List.mem_append.mp hb with hb | hb
    · have := h.within b hb
      omega
    · obtain rfl := List.mem_singleton.mp hb
      omega
  perm := by
    calc (log ++ [e]).Perm (e :: log) := List.perm_append_singleton e log
      _ |>.Perm (e :: (fin ++ pend)) := h.perm.cons e
      _ |>.Perm (fin ++ e :: pend) := List.perm_middle.symm
  ended := h.ended

/-- After a call the commands are in progress as their effects say. -/
theorem InProgress.called (hT : Local T inv loc) (hlog : Logged T inv s₀ s seq log fin pend)
    (h : InProgress T inv loc s seq pend) (hp : T.acting s a = some p) (hok : T.Undisturbed s a) :
    ∃ seq' log' pend', Logged T inv s₀ (T.called s a.client p) seq' log' fin pend' ∧
      InProgress T inv loc (T.called s a.client p) seq' pend' := by
  obtain ⟨hcalls, hstart, ⟨e, he, hclient, ht⟩ | ⟨hnot, hbefore, hrun⟩⟩ := h.acting_cases hT hp hok
  · exact ⟨seq, log, pend, hlog.called, h.call_taken hT hp hok he hclient ht⟩
  obtain ⟨-, hrest, -, hview, -⟩ := advance_local hT.locality hcalls h.inv_shared
  -- what is left to run gives what the whole command gives after the others
  have hrun' : CallTree.runAt T.execAt (T.advanced s p).rest
      (T.view (T.called s a.client p).shared (T.place p.cmd)) =
        CallTree.runAt T.execAt (T.prog p.cmd) (T.view seq (T.place p.cmd)) := by
    rw [← hrun, CallTree.runAt, ← run_advance T.execAt p.rest]
    show CallTree.run T.execAt (advance T.exec p.rest s.shared).1
      (T.view (advance T.exec p.rest s.shared).2 (T.place p.cmd)) = _
    rw [hrest, hview]
  by_cases hsettled : Settled T.execAt (T.advanced s p).rest
      (T.view (T.called s a.client p).shared (T.place p.cmd))
  · obtain ⟨hreply, hself, hother⟩ := CallTree.run_local hT.locality (hT.calls p.cmd) hlog.inv_seq
    let e : Op ι K α := {
      client := a.client
      cmd := p.cmd
      start := p.start
      finish := s.time + 1
      reply := (CallTree.run T.exec (T.prog p.cmd) seq).1 }
    have ht : T.Taken (T.view (T.called s a.client p).shared (T.place p.cmd)) e
        (T.advanced s p) := by
      refine ⟨hsettled, rfl, rfl, ?_⟩
      rw [hrun']
      exact hreply
    have hkeep : T.view (CallTree.run T.exec (T.prog p.cmd) seq).2 (T.place p.cmd) =
        T.view (T.called s a.client p).shared (T.place p.cmd) := by
      rw [hself, ← hrun']
      exact hsettled.run
    exact ⟨_, _, _, @Logged.commit C Res α S L V K ι T inv loc _ s₀ s seq log fin pend a p hT hlog e
        hstart rfl rfl,
      h.call_commit hT hp hok hnot rfl ht hother hkeep⟩
  · exact ⟨seq, log, pend, hlog.called,
      h.call_owing hT hp hok hnot ⟨hsettled, hbefore, hrun'⟩⟩

/-- A command with no call left that ends. -/
theorem InProgress.ended (hlog : Logged T inv s₀ s seq log fin pend)
    (h : InProgress T inv loc s seq pend) {i : ι} {reply : α} (hcur : s.current i = some p)
    (hrest : p.rest = .ret reply) :
    ∃ fin' pend', Logged T inv s₀ (s.ended i p reply) seq log fin' pend' ∧
      InProgress T inv loc (s.ended i p reply) seq pend' := by
  -- it has taken effect
  have hin : i ∈ pend.map Op.client := by
    by_contra hnot
    refine (h.owing i p hcur hnot).unsettled ?_
    rw [hrest]
    trivial
  obtain ⟨e, he, rfl⟩ := List.mem_map.mp hin
  obtain ⟨q, hq, ht⟩ := h.taken e he
  obtain rfl : q = p := Option.some.inj (hq.symm.trans hcur)
  obtain ⟨l₁, l₂, rfl⟩ := List.append_of_mem he
  have hnodup := h.pend_nodup
  rw [List.map_append, List.map_cons] at hnodup
  have hnot : e.client ∉ (l₁ ++ l₂).map Op.client := by
    rw [List.map_append]
    exact (List.nodup_middle.mp hnodup).notMem
  have hother : ∀ j, j ≠ e.client → (s.ended e.client q reply).current j = s.current j :=
    fun j hj => Function.update_of_ne hj _ _
  have hself : (s.ended e.client q reply).current e.client = none := Function.update_self _ _ _
  have hold : ∀ j r, (s.ended e.client q reply).current j = some r →
      j ≠ e.client ∧ s.current j = some r := by
    intro j r hr
    by_cases hj : j = e.client
    · rw [hj, hself] at hr
      cases hr
    · exact ⟨hj, (hother j hj).symm.trans hr⟩
  have hmem : ∀ j, j ≠ e.client →
      (j ∈ (l₁ ++ l₂).map Op.client ↔ j ∈ (l₁ ++ e :: l₂).map Op.client) := by
    intro j hj
    simp only [List.map_append, List.map_cons, List.mem_append, List.mem_cons, hj, false_or]
  refine ⟨e :: fin, l₁ ++ l₂, ⟨hlog.replays, hlog.inv_seq, hlog.sorted, hlog.within, ?_, ?_⟩,
    ⟨h.inv_shared, ?_, fun b hb => ?_, fun j r hr hj => ?_, fun j r hr => ?_, fun j r hr => ?_,
      fun l => ?_⟩⟩
  · calc log.Perm (fin ++ (l₁ ++ e :: l₂)) := hlog.perm
      _ |>.Perm (fin ++ e :: (l₁ ++ l₂)) := List.perm_middle.append_left fin
      _ |>.Perm (e :: (fin ++ (l₁ ++ l₂))) := List.perm_middle
  · have hwithin := hlog.within e (hlog.perm.mem_iff.mpr (List.mem_append_right _ he))
    refine List.Forall₂.cons ⟨hwithin.2, ?_⟩ hlog.ended
    have hreply : e.reply = reply := by
      rw [ht.reply, hrest]
      rfl
    rw [← hreply, ← ht.cmd, ← ht.start]
  · rw [List.map_append]
    exact (List.nodup_middle.mp hnodup).of_cons
  · have hb' : b.client ≠ e.client := fun heq => hnot (heq ▸ List.mem_map_of_mem hb)
    have hin' : b ∈ l₁ ++ e :: l₂ := by
      rcases List.mem_append.mp hb with hb | hb
      · exact List.mem_append_left _ hb
      · exact List.mem_append_right _ (List.mem_cons_of_mem _ hb)
    obtain ⟨r, hr, ht'⟩ := h.taken b hin'
    exact ⟨r, (hother _ hb').trans hr, ht'⟩
  · obtain ⟨hj', hr⟩ := hold j r hr
    exact h.owing j r hr (mt (hmem j hj').mpr hj)
  · exact h.calls j r (hold j r hr).2
  · exact h.start_lt j r (hold j r hr).2
  · rcases h.agree l with heq | ⟨j, r, hr, hplace, hj, halone⟩
    · exact Or.inl heq
    · have hj' : j ≠ e.client := fun heq => hj (heq ▸ hin)
      exact Or.inr ⟨j, r, (hother j hj').trans hr, hplace, mt (hmem j hj').mp hj,
        fun k q' hq' hplace' => halone k q' (hold k q' hq').2 hplace'⟩

end Called

/-! ## Whole runs -/

/-- The commands of the state are logged and in progress as their effects say. -/
def Invariant (T : Threads Res α S L V K) (inv : S → Prop) (loc : C → L) (s₀ : S)
    (s : State Res α S V K ι) : Prop :=
  ∃ seq log fin pend, Logged T inv s₀ s seq log fin pend ∧ InProgress T inv loc s seq pend

theorem invariant_initial {s₀ : S} (h₀ : inv s₀) :
    Invariant T inv loc s₀ (State.initial s₀ : State Res α S V K ι) := by
  refine ⟨s₀, [], [], [], ⟨rfl, h₀, List.Pairwise.nil, fun e he => ?_, List.Perm.nil,
    List.Forall₂.nil⟩, ⟨h₀, List.nodup_nil, fun e he => ?_, fun i p hp => ?_, fun i p hp => ?_,
      fun i p hp => ?_, fun l => Or.inl rfl⟩⟩
  · cases he
  · cases he
  · cases hp
  · cases hp
  · cases hp

section Run

variable [DecidableEq ι]

/-- The step lemma: what an undisturbing call keeps. -/
theorem Invariant.step (hT : Local T inv loc) {s₀ : S} {s t : State Res α S V K ι}
    {a : Action ι K} (h : Invariant T inv loc s₀ s) (hok : T.Undisturbed s a)
    (hstep : T.step s a = some t) : Invariant T inv loc s₀ t := by
  obtain ⟨seq, log, fin, pend, hlog, hprogress⟩ := h
  obtain ⟨p, hp, ht⟩ := step_cases hstep
  obtain ⟨seq', log', pend', hlog', hprogress'⟩ := hprogress.called hT hlog hp hok
  rcases ht with rfl | ⟨reply, hreply, rfl⟩
  · exact ⟨seq', log', fin, pend', hlog', hprogress'⟩
  · have hself : (T.called s a.client p).current a.client = some (T.advanced s p) :=
      Function.update_self _ _ _
    obtain ⟨fin', pend'', hended⟩ := hprogress'.ended hlog' hself hreply
    exact ⟨seq', log', fin', pend'', hended⟩

omit [DecidableEq ι] in
/-- The commands that have taken effect replay as the commands they are. -/
theorem Replays.extends {s s' : S} {log order : List (Op ι K α)} (h : T.Replays s log s')
    (hext : List.Forall₂ Extends log order) : T.Replays s order s' := by
  induction hext generalizing s with
  | nil => exact h
  | cons he _ ih =>
    rw [he.2]
    exact ⟨h.1, ih h.2⟩

omit [DecidableEq ι] in
/-- An order of effects respects the times of the commands. -/
theorem realTime_of_sorted {log order : List (Op ι K α)}
    (hsorted : log.Pairwise fun a b => a.finish < b.finish)
    (hwithin : ∀ e ∈ log, e.start < e.finish) (hext : List.Forall₂ Extends log order) :
    RealTime order := by
  induction hext with
  | nil => exact List.Pairwise.nil
  | @cons e op log order he hrest ih =>
    obtain ⟨hbelow, hsorted⟩ := List.pairwise_cons.mp hsorted
    refine List.pairwise_cons.mpr ⟨fun op' hop' => ?_,
      ih hsorted fun b hb => hwithin b (List.mem_cons_of_mem _ hb)⟩
    obtain ⟨e', he', hext'⟩ : ∃ e' ∈ log, Extends e' op' := by
      obtain ⟨n, hn, rfl⟩ := List.getElem_of_mem hop'
      have hlen : n < log.length := by rw [hrest.length_eq]; exact hn
      exact ⟨log[n], List.getElem_mem hlen, (List.forall₂_iff_get.mp hrest).2 n hlen hn⟩
    have hstart : op.start = e.start := by rw [he.2]
    have := hwithin e List.mem_cons_self
    have := hbelow e' he'
    have := hext'.1
    omega

omit [DecidableEq ι] in
/-- Where every client is idle, the history is linearizable. -/
theorem Invariant.linearizable (hT : Local T inv loc) {s₀ : S} {s : State Res α S V K ι}
    (h : Invariant T inv loc s₀ s) (hend : s.Complete) : T.Linearizable s₀ s := by
  obtain ⟨seq, log, fin, pend, hlog, hprogress⟩ := h
  have hpend : pend = [] := by
    refine List.eq_nil_iff_forall_not_mem.mpr fun e he => ?_
    obtain ⟨p, hp, -⟩ := hprogress.taken e he
    rw [hend e.client] at hp
    cases hp
  subst hpend
  have hshared : s.shared = seq := by
    refine hT.locality.ext _ _ hprogress.inv_shared hlog.inv_seq fun l => ?_
    rcases hprogress.agree l with heq | ⟨i, p, hp, -⟩
    · exact heq
    · rw [hend i] at hp
      cases hp
  have hperm : log.Perm fin := by simpa using hlog.perm
  obtain ⟨order, hext, horder⟩ := List.perm_comp_forall₂ hperm hlog.ended
  refine ⟨order, horder, ?_, ?_⟩
  · exact realTime_of_sorted hlog.sorted (fun e he => (hlog.within e he).1) hext
  · rw [hshared]
    exact hlog.replays.extends hext

/-- The run lemma: commands that disturb none of another client are linearizable. -/
theorem linearizable_of_along (hT : Local T inv loc) {s₀ : S} (h₀ : inv s₀)
    {as : List (Action ι K)} {s : State Res α S V K ι}
    (hok : Transitions.Along T.step T.Undisturbed (State.initial s₀) as)
    (hrun : Transitions.run T.step (State.initial s₀) as = some s) (hend : s.Complete) :
    T.Linearizable s₀ s := by
  have hreach : Transitions.Reaches T.step T.Undisturbed (· = State.initial s₀) s :=
    Transitions.run_reaches (.init rfl) hok hrun
  have hinv : Invariant T inv loc s₀ s := by
    refine hreach.invariant (fun t ht => ?_) (fun t a u ht hok hstep => ht.step hT hok hstep)
    rw [ht]
    exact invariant_initial h₀
  exact hinv.linearizable hT hend

end Run

/-! ## One location -/

/-- `Replays` at one location. -/
def ReplaysAt (T : Threads Res α S L V K) : V → List (Op ι K α) → V → Prop
  | v, [], v' => v = v'
  | v, op :: ops, v' =>
    (CallTree.runAt T.execAt (T.prog op.cmd) v).1 = op.reply ∧
      ReplaysAt T (CallTree.runAt T.execAt (T.prog op.cmd) v).2 ops v'

/-- What the commands keep at the location, each with what it says of a reply,
    they say of all replies. -/
theorem ReplaysAt.forall {T : Threads Res α S L V K} {P : V → Prop} {A Q : Op ι K α → Prop}
    (hstep : ∀ v op, P v → A op → (CallTree.runAt T.execAt (T.prog op.cmd) v).1 = op.reply →
      P (CallTree.runAt T.execAt (T.prog op.cmd) v).2 ∧ Q op)
    {v v' : V} {ops : List (Op ι K α)} (h : T.ReplaysAt v ops v') (hv : P v)
    (hops : ∀ op ∈ ops, A op) : ∀ op ∈ ops, Q op := by
  induction ops generalizing v with
  | nil => exact fun op hop => absurd hop List.not_mem_nil
  | cons first ops ih =>
    obtain ⟨hkept, hfirst⟩ := hstep v first hv (hops first List.mem_cons_self) h.1
    have hrest := ih h.2 hkept fun op hop => hops op (List.mem_cons_of_mem _ hop)
    exact List.forall_mem_cons.mpr ⟨hfirst, hrest⟩

/-- Commands executed one at a time act on each location as those at it do. -/
theorem Replays.replaysAt [DecidableEq L] (hT : Local T inv loc) {s s' : S} (hs : inv s)
    {ops : List (Op ι K α)} (h : T.Replays s ops s') (l : L) :
    T.ReplaysAt (T.view s l) (ops.filter fun op => T.place op.cmd = l) (T.view s' l) := by
  induction ops generalizing s with
  | nil =>
    obtain rfl : s = s' := h
    rfl
  | cons op ops ih =>
    obtain ⟨hreply, hself, hother⟩ := CallTree.run_local hT.locality (hT.calls op.cmd) hs
    have hrest := ih (CallTree.inv_run hT.locality _ hs) h.2
    by_cases hl : T.place op.cmd = l
    · subst hl
      rw [List.filter_cons_of_pos (by simp)]
      rw [hself] at hrest
      exact ⟨hreply.symm.trans h.1, hrest⟩
    · rw [List.filter_cons_of_neg (by simpa using hl)]
      rwa [hother l (Ne.symm hl)] at hrest

/-- What a linearizable history says of one location. -/
theorem Linearizable.replaysAt [DecidableEq L] (hT : Local T inv loc) {s₀ : S} (h₀ : inv s₀)
    {s : State Res α S V K ι} (h : T.Linearizable s₀ s) (l : L) :
    ∃ order : List (Op ι K α), order.Perm (s.done.filter fun op => T.place op.cmd = l) ∧
      T.ReplaysAt (T.view s₀ l) order (T.view s.shared l) := by
  obtain ⟨order, hperm, -, hreplays⟩ := h
  exact ⟨_, hperm.filter _, hreplays.replaysAt hT h₀ l⟩

end Threads

end Interleave
