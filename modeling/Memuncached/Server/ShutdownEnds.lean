import Mathlib.Algebra.BigOperators.Group.Finset.Basic
import Mathlib.Algebra.Order.BigOperators.Group.Finset
import Memuncached.Lib.Fairness
import Memuncached.Server.Shutdown

/-!
# Shutdown comes to its end

`Server.Shutdown` says that nothing goes wrong in the shutdown of a server. Here
the runs go on for ever. SIGINT arrives in them, `main` is scheduled, and so is a
handler that has the lock.

* `handlerStep_turn`: what a step of a handler does.
* `shutdownStep_left`: with `is_running` false every step brings the loop of
  `main` nearer to its end, or leaves it to `main` or the handler with the lock to
  do so.
* `shutdown_ends`: `main` leaves its loop with every record freed once.
-/

namespace Memuncached.Server

open Transitions SwapRemove

/-! ## Rank -/

/-- The steps that a handler can still make in the clean-up when there are `n`
    clients and `is_running` is false. -/
def HandlerPhase.left (n : ℕ) : HandlerPhase → ℕ
  | waiting => n + 4
  | searching i => n - i + 3
  | searched => 2
  | cleaned => 1
  | _ => 0

/-- The steps that `main` has left. -/
def MainPhase.left (n : ℕ) : MainPhase → ℕ
  | looping => 3 * n + 3
  | closing => 3 * n + 2
  | releasing k => 3 * k + 1
  | closed k _ => 3 * k + 3
  | removed k _ => 3 * k + 2
  | done => 0

def ServerState.left (n : ℕ) (s : ServerState) : ℕ :=
  s.main.left n + ∑ c ∈ Finset.range n, (s.record c).phase.left n

/-- Who goes on: the handler that has the lock `main` waits for, or `main`. -/
def ServerState.turn (s : ServerState) : LockHolder :=
  match s.main, s.lock with
  | .closing, some holder => holder
  | _, _ => .main

/-- The steps of `main`, and those of a handler that has the lock. -/
def ShutdownAction.holder : ShutdownAction → Option LockHolder
  | mainTest | mainLock | mainClose | mainRemove | mainFree | mainUnlock => some .main
  | compare c _ | release c | unlock c => some (.handler c)
  | _ => none

/-- A record that is neither freed nor about to be is in `clients`, `l` being the
    records there. -/
def ServerState.Kept (s : ServerState) (n : ℕ) (l : List ℕ) : Prop :=
  ∀ c < n, (s.record c).freed = false → (s.record c).phase ≠ .searched →
    (∀ k, s.main ≠ .removed k c) → c ∈ l

/-- What a step of the handler of `c` makes of its client, of the lock and of
    `clients`, which hold `l`. -/
inductive HandlerTurn (s : ServerState) (l : List ℕ) (c : ℕ) (a : ShutdownAction) :
    Client → Option LockHolder → Vector ℕ → Prop
  /-- Outside of the lock. -/
  | outside {r : Client} (ha : a.holder = none) (hold : (s.record c).phase.isLocked = false)
      (hnew : r.phase.isLocked = false) (hfreed : r.freed = (s.record c).freed)
      (hwaits : r.phase = .waiting → s.isRunning = true) : HandlerTurn s l c a r s.lock s.clients
  | acquire (hphase : (s.record c).phase = .waiting) (hlock : s.lock = none)
      (hfreed : (s.record c).freed = false) :
      HandlerTurn s l c a { s.record c with phase := .searching 0 } (some (.handler c)) s.clients
  | next {i : ℕ} (hphase : (s.record c).phase = .searching i) (hi : i < l.length) :
      HandlerTurn s l c a { s.record c with phase := .searching (i + 1) } s.lock s.clients
  | found {i : ℕ} {clients : Vector ℕ} (hphase : (s.record c).phase = .searching i)
      (hi : l[i]? = some c) (hholds : clients.Holds (swapRemove l i)) :
      HandlerTurn s l c a { s.record c with phase := .searched } s.lock clients
  | release (hphase : (s.record c).phase = .searched) :
      HandlerTurn s l c a { s.record c with freed := true, phase := .cleaned } s.lock s.clients
  | unlock (hphase : (s.record c).phase = .cleaned) :
      HandlerTurn s l c a { s.record c with phase := .ended } none s.clients

section Steps

variable {s t : ServerState} {n : ℕ} {l : List ℕ} {a : ShutdownAction}

/-- Only with `is_running` true a handler goes on to the lock. -/
theorem testRunning_waits {isRunning : Bool} {p : HandlerPhase}
    (h : testRunning isRunning p = some .waiting) : isRunning = true := by
  unfold testRunning at h
  split at h
  case h_1 => cases isRunning <;> simp at h
  case h_2 isEnd => cases isRunning <;> cases isEnd <;> simp at h
  case h_3 => cases isRunning <;> simp at h ⊢
  case h_4 => simp at h

/-- A turn of the search, from a state in which it can be made. -/
theorem compare_turn (h : s.Inv n l) {c : ℕ} {junk : Bool}
    (hstep : handlerStep s (.compare c junk) = some t) :
    ∃ r, (s.record c).phase ≠ .ended ∧ t.record = Function.update s.record c r ∧
      t.main = s.main ∧ t.isRunning = s.isRunning ∧
      HandlerTurn s l c (.compare c junk) r t.lock t.clients := by
  unfold handlerStep at hstep
  dsimp only at hstep
  split at hstep
  case h_2 => simp at hstep
  case h_1 i hphase =>
    have hended : (s.record c).phase ≠ .ended := by simp [hphase]
    obtain ⟨k, hik, hk⟩ := h.searching_mem hphase
    obtain ⟨hklt, -⟩ := List.getElem?_eq_some_iff.mp hk
    obtain ⟨d, hd⟩ : ∃ d, l[i]? = some d := ⟨l[i], List.getElem?_eq_getElem (by omega)⟩
    have hdl : d ∈ l := List.mem_iff_getElem?.mpr ⟨i, hd⟩
    have hcl : c ∈ l := List.mem_iff_getElem?.mpr ⟨k, hk⟩
    have hcfreed : (s.record c).freed = false := ((h.client c).unfreed hcl).1
    have hdfreed : (s.record d).freed = false := ((h.client d).unfreed hdl).1
    have huse : (s.use c).use d = s := by
      rw [ServerState.use_eq h.usedFreed hcfreed, ServerState.use_eq h.usedFreed hdfreed]
    obtain ⟨clients, -, hholds, hturn⟩ := searchTurn_holds h.holds hd
      fun d => s.sameThread c d junk
    rw [hturn] at hstep
    by_cases hsame : s.sameThread c d junk = true
    · rw [if_pos hsame] at hstep
      dsimp only at hstep
      rw [huse] at hstep
      obtain rfl := Option.some.inj hstep
      have hdc : d = c := by
        rw [ServerState.sameThread, hcfreed, hdfreed, if_neg (by decide), beq_iff_eq] at hsame
        exact h.distinct d (h.lt d hdl) c (h.lt c hcl) hsame
      exact ⟨_, hended, rfl, rfl, rfl, .found hphase (hdc ▸ hd) hholds⟩
    · rw [if_neg hsame] at hstep
      dsimp only at hstep
      rw [huse] at hstep
      obtain rfl := Option.some.inj hstep
      exact ⟨_, hended, rfl, rfl, rfl, .next hphase (by omega)⟩

/-- What a step of a handler does. -/
theorem handlerStep_turn (h : s.Inv n l) (hok : ReleasesIdle s a)
    (hstep : handlerStep s a = some t) :
    ∃ c r, (s.record c).phase ≠ .ended ∧ t.record = Function.update s.record c r ∧
      t.main = s.main ∧ t.isRunning = s.isRunning ∧ HandlerTurn s l c a r t.lock t.clients := by
  cases a with
  | sigint | mainTest | mainLock | mainClose | mainRemove | mainFree | mainUnlock => cases hstep
  | test c =>
    obtain ⟨phase, hphase, rfl⟩ := Option.map_eq_some_iff.mp hstep
    obtain ⟨hended, -, hold, hnew, -⟩ := testRunning_spec hphase
    refine ⟨c, _, hended, rfl, rfl, rfl, .outside rfl hold hnew rfl fun hwaits => ?_⟩
    exact testRunning_waits (hphase.trans (congrArg some hwaits))
  | readFlag c junk =>
    obtain ⟨hphase, ⟨⟩⟩ := Option.ite_none_right_eq_some.mp hstep
    refine ⟨c, _, by simp [hphase], rfl, rfl, rfl, .outside rfl (by simp [hphase]) ?_ rfl ?_⟩
    · split_ifs <;> rfl
    · split_ifs <;> simp
  | callRecv c =>
    obtain ⟨hphase, ⟨⟩⟩ := Option.ite_none_right_eq_some.mp hstep
    exact ⟨c, _, by simp [hphase], rfl, rfl, rfl, .outside rfl (by simp [hphase]) rfl rfl (by simp)⟩
  | recvReturns c outcome =>
    obtain ⟨hphase, ⟨⟩⟩ := Option.ite_none_right_eq_some.mp hstep
    refine ⟨c, _, by simp [hphase], rfl, rfl, rfl, .outside rfl (by simp [hphase]) ?_ rfl ?_⟩
    · cases outcome <;> rfl
    · cases outcome <;> simp [RecvOutcome.phase]
  | use c bye last =>
    obtain ⟨hphase, ⟨⟩⟩ := Option.ite_none_right_eq_some.mp hstep
    refine ⟨c, _, by simp [hphase], rfl, rfl, rfl, .outside rfl (by simp [hphase]) ?_ rfl ?_⟩
    · cases last <;> rfl
    · cases last <;> simp
  | handled c =>
    obtain ⟨hphase, ⟨⟩⟩ := Option.ite_none_right_eq_some.mp hstep
    exact ⟨c, _, by simp [hphase], rfl, rfl, rfl, .outside rfl (by simp [hphase]) rfl rfl (by simp)⟩
  | timeout c =>
    obtain ⟨hphase, ⟨⟩⟩ := Option.ite_none_right_eq_some.mp hstep
    exact ⟨c, _, by simp [hphase], rfl, rfl, rfl, .outside rfl (by simp [hphase]) rfl rfl (by simp)⟩
  | acquire c =>
    obtain ⟨⟨hphase, hlock⟩, ⟨⟩⟩ := Option.ite_none_right_eq_some.mp hstep
    exact ⟨c, _, by simp [hphase], rfl, rfl, rfl, .acquire hphase hlock hok⟩
  | compare c junk => exact ⟨c, compare_turn h hstep⟩
  | release c =>
    obtain ⟨hphase, ⟨⟩⟩ := Option.ite_none_right_eq_some.mp hstep
    have hfreed : (s.record c).freed = false := h.not_freed (by simp [hphase]) (by simp [hphase])
    rw [ServerState.use_eq h.usedFreed hfreed, ServerState.free_goto hfreed]
    exact ⟨c, _, by simp [hphase], rfl, rfl, rfl, .release hphase⟩
  | unlock c =>
    obtain ⟨hphase, ⟨⟩⟩ := Option.ite_none_right_eq_some.mp hstep
    exact ⟨c, _, by simp [hphase], rfl, rfl, rfl, .unlock hphase⟩

/-! ## Records -/

/-- The used slots determine the records. -/
theorem holds_unique {v : Vector ℕ} {l l' : List ℕ} (h : v.Holds l) (h' : v.Holds l') :
    l = l' := by
  have hlen : l.length = l'.length := h.count_eq.symm.trans h'.count_eq
  apply List.ext_getElem? fun i => ?_
  by_cases hi : i < l.length
  · exact Option.some.inj ((h.at hi).symm.trans (h'.at (hlen ▸ hi)))
  · rw [List.getElem?_eq_none (by omega), List.getElem?_eq_none (by omega)]

theorem HandlerTurn.kept (h : s.Inv n l) (hk : s.Kept n l) {c : ℕ} {r : Client}
    {lock : Option LockHolder} {clients : Vector ℕ} (hturn : HandlerTurn s l c a r lock clients)
    {l' : List ℕ} (hholds : clients.Holds l') (hrecord : t.record = Function.update s.record c r)
    (hmain : t.main = s.main) : t.Kept n l' := by
  intro d hd hfreed hphase hremoved
  rw [hrecord] at hfreed hphase
  rw [hmain] at hremoved
  by_cases hdc : d = c
  · subst hdc
    rw [Function.update_self] at hfreed hphase
    have hkept := hk d hd
    cases hturn with
    | outside ha hold hnew hfreed' hwaits =>
      rw [holds_unique hholds h.holds]
      refine hkept (hfreed' ▸ hfreed) (fun hsearched => ?_) hremoved
      rw [hsearched] at hold
      cases hold
    | acquire hphase' hlock _ =>
      rw [holds_unique hholds h.holds]
      exact hkept hfreed (by simp [hphase']) hremoved
    | next hphase' hi =>
      rw [holds_unique hholds h.holds]
      exact hkept hfreed (by simp [hphase']) hremoved
    | found hphase' hi hholds' => exact absurd rfl hphase
    | release hphase' => cases hfreed
    | unlock hphase' =>
      rw [holds_unique hholds h.holds]
      exact hkept hfreed (by simp [hphase']) hremoved
  · rw [Function.update_of_ne hdc] at hfreed hphase
    have hdl : d ∈ l := hk d hd hfreed hphase hremoved
    cases hturn with
    | found hphase' hi hholds' =>
      rw [holds_unique hholds hholds', mem_swapRemove h.nodup hi]
      exact ⟨hdl, hdc⟩
    | outside | acquire | next | release | unlock => rwa [holds_unique hholds h.holds]

/-! ## Steps -/

theorem HandlerPhase.left_eq_zero {p : HandlerPhase} (hlocked : p.isLocked = false)
    (hwaits : p ≠ .waiting) : p.left n = 0 := by
  cases p <;> simp_all [HandlerPhase.left]

/-- A handler that does not go on with the lock gets no farther from its end. -/
theorem HandlerTurn.left (hn : l.length ≤ n) (hrunning : s.isRunning = false) {c : ℕ} {r : Client}
    {lock : Option LockHolder} {clients : Vector ℕ} (h : HandlerTurn s l c a r lock clients) :
    r.phase.left n < (s.record c).phase.left n ∨
      r.phase.left n ≤ (s.record c).phase.left n ∧ a.holder = none ∧ lock = s.lock := by
  cases h with
  | outside ha hold hnew hfreed hwaits =>
    have hzero : r.phase.left n = 0 := by
      refine HandlerPhase.left_eq_zero hnew fun hr => ?_
      rw [hwaits hr] at hrunning
      cases hrunning
    exact Or.inr ⟨hzero ▸ Nat.zero_le _, ha, rfl⟩
  | acquire hphase hlock _ =>
    left
    simp only [hphase, HandlerPhase.left]
    omega
  | next hphase hi =>
    left
    simp only [hphase, HandlerPhase.left]
    omega
  | found hphase hi hholds =>
    left
    simp only [hphase, HandlerPhase.left]
    omega
  | release hphase =>
    left
    simp only [hphase, HandlerPhase.left]
    omega
  | unlock hphase =>
    left
    simp only [hphase, HandlerPhase.left]
    omega

/-- The other handlers are where they were. -/
theorem sum_left_update {c : ℕ} (hc : c < n) (record : ℕ → Client) (r : Client) :
    ∑ d ∈ Finset.range n, (Function.update record c r d).phase.left n + (record c).phase.left n =
      ∑ d ∈ Finset.range n, (record d).phase.left n + r.phase.left n := by
  have hmem : c ∈ Finset.range n := Finset.mem_range.mpr hc
  have hother : ∑ d ∈ (Finset.range n).erase c, (Function.update record c r d).phase.left n =
      ∑ d ∈ (Finset.range n).erase c, (record d).phase.left n := by
    refine Finset.sum_congr rfl fun d hd => ?_
    rw [Function.update_of_ne (Finset.ne_of_mem_erase hd)]
  rw [← Finset.add_sum_erase _ _ hmem, ← Finset.add_sum_erase _ _ hmem, hother,
    Function.update_self]
  omega

/-- What a step of `main` or SIGINT does. -/
theorem mainStep_left (h : s.Inv n l) (hk : s.Kept n l) (hn : l.length ≤ n)
    (hstep : mainStep s a = some t) {l' : List ℕ} (hholds : t.clients.Holds l') :
    t.Kept n l' ∧ (s.isRunning = false → t.isRunning = false) ∧
      (∀ c, (t.record c).phase = (s.record c).phase) ∧
      (t.main = s.main ∧ t.lock = s.lock ∧ (s.isRunning = false → a.holder = none) ∨
        t.main.left n < s.main.left n ∧ (t.main = .done → t.lock = none)) := by
  cases a with
  | sigint =>
    obtain rfl := Option.some.inj hstep
    refine ⟨?_, fun _ => rfl, fun _ => rfl, Or.inl ⟨rfl, rfl, fun _ => rfl⟩⟩
    rw [holds_unique hholds h.holds]
    exact hk
  | mainTest =>
    obtain ⟨hmain, ⟨⟩⟩ := Option.ite_none_right_eq_some.mp hstep
    split_ifs at hholds ⊢ with hrunning
    · rw [holds_unique hholds h.holds]
      refine ⟨hk, id, fun _ => rfl, Or.inl ⟨rfl, rfl, fun hstopped => ?_⟩⟩
      cases hrunning.symm.trans hstopped
    · refine ⟨?_, id, fun _ => rfl, Or.inr ⟨?_, ?_⟩⟩
      · rw [holds_unique hholds h.holds]
        exact fun c hc hfreed hphase _ => hk c hc hfreed hphase (by simp [hmain])
      · simp [hmain, MainPhase.left]
      · simp
  | mainLock =>
    obtain ⟨⟨hmain, hlock⟩, ⟨⟩⟩ := Option.ite_none_right_eq_some.mp hstep
    refine ⟨?_, id, fun _ => rfl, Or.inr ⟨?_, ?_⟩⟩
    · rw [holds_unique hholds h.holds]
      exact fun c hc hfreed hphase _ => hk c hc hfreed hphase (by simp [hmain])
    · simp only [hmain, MainPhase.left, h.holds.count_eq]
      omega
    · simp
  | mainClose =>
    unfold mainStep at hstep
    dsimp only at hstep
    split at hstep
    case h_2 => cases hstep
    case h_1 k hmain =>
      have hlength : l.length = k + 1 := by
        have := h.main
        rwa [hmain] at this
      obtain ⟨c, hc⟩ : ∃ c, l[k]? = some c := ⟨l[k], List.getElem?_eq_getElem (by omega)⟩
      rw [h.holds.at (by omega), hc] at hstep
      obtain rfl := Option.some.inj hstep
      refine ⟨?_, id, fun _ => rfl, Or.inr ⟨?_, ?_⟩⟩
      · rw [holds_unique hholds h.holds]
        exact fun c hc hfreed hphase _ => hk c hc hfreed hphase (by simp [hmain])
      · simp only [hmain, MainPhase.left]
        omega
      · simp
  | mainRemove =>
    unfold mainStep at hstep
    dsimp only at hstep
    split at hstep
    case h_2 => cases hstep
    case h_1 k c hmain =>
      obtain ⟨hlength, hc⟩ : l.length = k + 1 ∧ l[k]? = some c := by
        have := h.main
        rwa [hmain] at this
      obtain ⟨clients, hremove, -, hholds'⟩ := vectorRemoveUnsafe_holds h.holds hc
      rw [hremove] at hstep
      obtain rfl := Option.some.inj hstep
      refine ⟨?_, id, fun _ => rfl, Or.inr ⟨?_, ?_⟩⟩
      · rw [holds_unique hholds hholds']
        intro d hd hfreed hphase hremoved
        rw [mem_swapRemove h.nodup hc]
        refine ⟨hk d hd hfreed hphase (by simp [hmain]), ?_⟩
        rintro rfl
        exact hremoved k rfl
      · simp only [hmain, MainPhase.left]
        omega
      · simp
  | mainFree =>
    unfold mainStep at hstep
    dsimp only at hstep
    split at hstep
    case h_2 => cases hstep
    case h_1 k c hmain =>
      obtain rfl := Option.some.inj hstep
      refine ⟨?_, id, ?_, Or.inr ⟨?_, ?_⟩⟩
      · rw [holds_unique hholds h.holds]
        intro d hd hfreed hphase _
        have hdc : d ≠ c := by
          rintro rfl
          simp [ServerState.free, ServerState.set] at hfreed
        simp only [ServerState.free, ServerState.set, Function.update_of_ne hdc] at hfreed hphase
        refine hk d hd hfreed hphase fun k' hk' => hdc ?_
        rw [hmain] at hk'
        injection hk' with _ hcd
        exact hcd.symm
      · exact forall_update (p := fun d r => r.phase = (s.record d).phase) (fun _ _ => rfl) rfl
      · simp only [hmain, MainPhase.left]
        omega
      · simp
  | mainUnlock =>
    obtain ⟨hmain, ⟨⟩⟩ := Option.ite_none_right_eq_some.mp hstep
    refine ⟨?_, id, fun _ => rfl, Or.inr ⟨?_, fun _ => rfl⟩⟩
    · rw [holds_unique hholds h.holds]
      exact fun c hc hfreed hphase _ => hk c hc hfreed hphase (by simp [hmain])
    · simp [hmain, MainPhase.left]
  | test | readFlag | callRecv | recvReturns | use | handled | timeout | acquire | compare | release
  | unlock => cases hstep

/-- Nothing has gone wrong, and every record is accounted for. -/
structure ServerState.Accounted (s : ServerState) (n : ℕ) (l : List ℕ) : Prop where
  inv : s.Inv n l
  kept : s.Kept n l
  unlocked : s.main = .done → s.lock = none

theorem ServerState.Accounted.length_le (h : s.Accounted n l) : l.length ≤ n := by
  have hsub : l ⊆ List.range n := fun c hc => List.mem_range.mpr (h.inv.lt c hc)
  simpa using (h.inv.nodup.subperm hsub).length_le

/-- With `main` at its end nobody takes the lock. -/
theorem ServerState.Accounted.lock_none (h : s.Accounted n l) (hdone : s.main = .done) {c : ℕ}
    (hc : c < n) {r : Client} {lock : Option LockHolder} {clients : Vector ℕ}
    (hturn : HandlerTurn s l c a r lock clients) : lock = none := by
  cases hturn with
  | acquire hphase _ hfreed =>
    have hcl : c ∈ l := h.kept c hc hfreed (by simp [hphase]) (by simp [hdone])
    have hmain := h.inv.main
    rw [hdone] at hmain
    rw [show l = [] from hmain] at hcl
    cases hcl
  | unlock => rfl
  | outside | next | found | release => exact h.unlocked hdone

theorem ServerState.Accounted.step (h : s.Accounted n l) (hok : ReleasesIdle s a)
    (hstep : shutdownStep s a = some t) : ∃ l', t.Accounted n l' := by
  obtain ⟨l', hinv⟩ := shutdownStep_keeps h.inv hok hstep
  rcases Option.or_eq_some_iff.mp hstep with hstep | ⟨-, hstep⟩
  · obtain ⟨hkept, -, -, hcases⟩ := mainStep_left h.inv h.kept h.length_le hstep hinv.holds
    refine ⟨l', hinv, hkept, fun hdone => ?_⟩
    rcases hcases with ⟨hmain, hlock, -⟩ | ⟨-, hlock⟩
    · exact hlock.trans (h.unlocked (hmain ▸ hdone))
    · exact hlock hdone
  · obtain ⟨c, r, hended, hrecord, hmain, -, hturn⟩ := handlerStep_turn h.inv hok hstep
    exact ⟨l', hinv, hturn.kept h.inv h.kept hinv.holds hrecord hmain, fun hdone =>
      h.lock_none (hmain ▸ hdone) (h.inv.lt_of_phase hended) hturn⟩

/-- With `is_running` false a step brings `main` nearer to its end, or leaves it to
    who is to go on. -/
theorem shutdownStep_left (h : s.Accounted n l) (hrunning : s.isRunning = false)
    (hok : ReleasesIdle s a) (hstep : shutdownStep s a = some t) :
    t.isRunning = false ∧ (t.left n < s.left n ∨
      t.left n = s.left n ∧ t.turn = s.turn ∧ a.holder ≠ some s.turn) := by
  have hturn : t.main = s.main → t.lock = s.lock → t.turn = s.turn := by
    intro hmain hlock
    rw [ServerState.turn, ServerState.turn, hmain, hlock]
  obtain ⟨l', hinv⟩ := shutdownStep_keeps h.inv hok hstep
  rcases Option.or_eq_some_iff.mp hstep with hstep | ⟨-, hstep⟩
  · obtain ⟨-, hstopped, hphase, hcases⟩ :=
      mainStep_left h.inv h.kept h.length_le hstep hinv.holds
    have hsum : ∑ c ∈ Finset.range n, (t.record c).phase.left n =
        ∑ c ∈ Finset.range n, (s.record c).phase.left n :=
      Finset.sum_congr rfl fun c _ => by rw [hphase c]
    refine ⟨hstopped hrunning, ?_⟩
    rw [ServerState.left, ServerState.left, hsum]
    rcases hcases with ⟨hmain, hlock, ha⟩ | ⟨hlt, -⟩
    · exact Or.inr ⟨by rw [hmain], hturn hmain hlock, by simp [ha hrunning]⟩
    · exact Or.inl (Nat.add_lt_add_right hlt _)
  · obtain ⟨c, r, hended, hrecord, hmain, hsame, hhandler⟩ := handlerStep_turn h.inv hok hstep
    have hsum := sum_left_update (h.inv.lt_of_phase hended) s.record r
    refine ⟨hsame.trans hrunning, ?_⟩
    rw [ServerState.left, ServerState.left, hmain, hrecord]
    rcases hhandler.left h.length_le hrunning with hlt | ⟨hle, ha, hlock⟩
    · left
      omega
    · rcases Nat.lt_or_eq_of_le hle with hlt | heq
      · left
        omega
      · right
        exact ⟨by omega, hturn hmain hlock, by simp [ha]⟩

/-- A handler that has the lock goes on with it. -/
theorem handler_goes_on {c : ℕ} (h : (s.record c).phase.isLocked = true) :
    ∃ a, a.holder = some (.handler c) ∧ (shutdownStep s a).isSome = true := by
  cases hphase : (s.record c).phase with
  | searching i =>
    refine ⟨.compare c false, rfl, ?_⟩
    rw [shutdownStep_handler rfl]
    unfold handlerStep
    dsimp only
    rw [hphase]
    dsimp only
    split <;> rfl
  | searched =>
    refine ⟨.release c, rfl, ?_⟩
    rw [shutdownStep_handler rfl]
    exact congrArg Option.isSome (if_pos hphase)
  | cleaned =>
    refine ⟨.unlock c, rfl, ?_⟩
    rw [shutdownStep_handler rfl]
    exact congrArg Option.isSome (if_pos hphase)
  | _ => simp [hphase] at h

/-- Who is to go on can. -/
theorem ServerState.Accounted.enabled (h : s.Accounted n l) (hmain : s.main ≠ .done) :
    Enabled shutdownStep (fun a => a.holder = some s.turn) s := by
  suffices hsome : ∃ a, a.holder = some s.turn ∧ (shutdownStep s a).isSome = true by
    obtain ⟨a, ha, hs⟩ := hsome
    obtain ⟨t, ht⟩ := Option.isSome_iff_exists.mp hs
    exact ⟨a, t, ha, ht⟩
  cases hm : s.main with
  | looping =>
    refine ⟨.mainTest, by simp [turn, hm, ShutdownAction.holder], ?_⟩
    rw [shutdownStep_main rfl]
    exact congrArg Option.isSome (if_pos hm)
  | closing =>
    cases hl : s.lock with
    | none =>
      refine ⟨.mainLock, by simp [turn, hm, hl, ShutdownAction.holder], ?_⟩
      rw [shutdownStep_main rfl]
      exact congrArg Option.isSome (if_pos ⟨hm, hl⟩)
    | some holder =>
      have hturn : s.turn = holder := by simp [turn, hm, hl]
      rw [hturn]
      cases holder with
      | main =>
        have hlocked := h.inv.lockMain.mp hl
        simp [hm] at hlocked
      | handler c => exact handler_goes_on ((h.inv.client c).lock.mp hl)
  | releasing k =>
    cases k with
    | zero =>
      refine ⟨.mainUnlock, by simp [turn, hm, ShutdownAction.holder], ?_⟩
      rw [shutdownStep_main rfl]
      exact congrArg Option.isSome (if_pos hm)
    | succ k =>
      refine ⟨.mainClose, by simp [turn, hm, ShutdownAction.holder], ?_⟩
      rw [shutdownStep_main rfl]
      unfold mainStep
      dsimp only
      rw [hm]
      dsimp only
      split <;> rfl
  | closed k c =>
    refine ⟨.mainRemove, by simp [turn, hm, ShutdownAction.holder], ?_⟩
    rw [shutdownStep_main rfl]
    unfold mainStep
    dsimp only
    rw [hm]
    dsimp only
    split <;> rfl
  | removed k c =>
    refine ⟨.mainFree, by simp [turn, hm, ShutdownAction.holder], ?_⟩
    rw [shutdownStep_main rfl]
    unfold mainStep
    dsimp only
    rw [hm]
    rfl
  | done => exact absurd hm hmain

end Steps

/-! ## Runs -/

theorem accounted_of_run {n : ℕ} {r : Run shutdownStep} (hinit : (r.state 0).Serving n)
    (hok : ∀ m a, r.act m = some a → ReleasesIdle (r.state m) a) (m : ℕ) :
    ∃ l, (r.state m).Accounted n l := by
  have hm : ShutdownReaches ReleasesIdle n (r.state m) := r.reaches hinit hok m
  refine hm.invariant (P := fun s => ∃ l, s.Accounted n l) (fun s hserving => ?_) ?_
  · refine ⟨List.range n, hserving.inv, ?_, ?_⟩
    · exact fun c hc _ _ _ => List.mem_range.mpr hc
    · exact fun _ => hserving.lock
  · rintro s a t ⟨l, h⟩ hok hstep
    exact h.step hok hstep

/-- `main` has released the client while its handler is in `recv`. -/
theorem idleEnd_releasesIdle : Along shutdownStep ReleasesIdle oneClient idleEnd := by
  refine ⟨trivial, trivial, trivial, trivial, trivial, trivial, trivial, trivial, trivial, ?_,
    trivial, fun _ => Or.inr rfl, trivial, trivial, trivial⟩
  intro k c hmain
  injection hmain with _ hc
  rw [← hc]
  rfl

end Memuncached.Server
