import Memuncached.Lib.Transitions
import Mathlib.Data.Nat.Find
import Mathlib.Order.RelClasses

/-!
# Infinite runs

A run that goes on for ever, with a step or none at every moment. It is fair to
a kind of action, `mine`, when such an action is taken again and again unless
none can be taken.

* `Run.reaches`: the states of a run are reached.
* `Run.comes`: where some part of the state is changed by `mine` alone and gets to
  `Q` by its steps, whichever they are (`Comes`), a fair run gets to `Q`.
* `Run.leads_of_rank`: where the actions that bring a rank down are of one kind at
  one time and of another at another, a run that is fair to all of them gets to
  `Q`.
* `exists_run_of_repeat`: runs that end in an action that can be repeated.
-/

namespace Transitions

variable {σ α τ : Type*}

/-- At every moment an action is taken, or nothing happens. -/
structure Run (step : σ → α → Option σ) where
  state : ℕ → σ
  act : ℕ → Option α
  next : ∀ n, (act n).elim (some (state n)) (step (state n)) = some (state (n + 1))

/-- Some action of this kind can be taken. -/
def Enabled (step : σ → α → Option σ) (mine : α → Prop) (s : σ) : Prop :=
  ∃ a t, mine a ∧ step s a = some t

/-- `part` gets to `Q` by steps of `mine`, at least one of which can be taken until
    it does. -/
inductive Comes (step : σ → α → Option σ) (mine : α → Prop) (part : σ → τ) (Q : τ → Prop) :
    τ → Prop
  | here {p : τ} : Q p → Comes step mine part Q p
  | next {p : τ} : (∀ s, part s = p → Enabled step mine s) →
      (∀ s a t, part s = p → mine a → step s a = some t → Comes step mine part Q (part t)) →
      Comes step mine part Q p

variable {step : σ → α → Option σ} {ok : σ → α → Prop} {init : σ → Prop} {mine : α → Prop}
  {part : σ → τ} {Q : τ → Prop}

namespace Run

variable (r : Run step)

/-- An action that can be taken from some moment on is taken later. -/
def Fair (mine : α → Prop) : Prop :=
  ∀ n, (∀ m, n ≤ m → Enabled step mine (r.state m)) →
    ∃ m a, n ≤ m ∧ r.act m = some a ∧ mine a

variable {r}

theorem step_of_act {n : ℕ} {a : α} (h : r.act n = some a) :
    step (r.state n) a = some (r.state (n + 1)) := by
  have hnext := r.next n
  rwa [h] at hnext

theorem state_of_act_none {n : ℕ} (h : r.act n = none) : r.state (n + 1) = r.state n := by
  have hnext := r.next n
  rw [h] at hnext
  exact (Option.some.inj hnext).symm

theorem reaches (hinit : init (r.state 0)) (hok : ∀ n a, r.act n = some a → ok (r.state n) a)
    (n : ℕ) : Reaches step ok init (r.state n) := by
  induction n with
  | zero => exact .init hinit
  | succ n ih =>
    cases hact : r.act n with
    | none => rwa [r.state_of_act_none hact]
    | some a => exact .step ih (hok n a hact) (r.step_of_act hact)

/-- Until `mine` acts the part stays as it is. -/
theorem part_eq (hothers : ∀ s a t, ¬ mine a → step s a = some t → part t = part s) {n m : ℕ}
    (hle : n ≤ m) (hidle : ∀ k a, n ≤ k → k < m → r.act k = some a → ¬ mine a) :
    part (r.state m) = part (r.state n) := by
  induction m, hle using Nat.le_induction with
  | base => rfl
  | succ m hle ih =>
    have hm := ih fun k a hk hkm => hidle k a hk (Nat.lt_succ_of_lt hkm)
    cases hact : r.act m with
    | none => rw [r.state_of_act_none hact, hm]
    | some a =>
      have ha : ¬ mine a := hidle m a hle (Nat.lt_succ_self m) hact
      rw [hothers _ a _ ha (r.step_of_act hact), hm]

/-- A run that is fair to those who change the part. -/
theorem comes (hothers : ∀ s a t, ¬ mine a → step s a = some t → part t = part s)
    (hfair : r.Fair mine) {n : ℕ} (h : Comes step mine part Q (part (r.state n))) :
    ∃ m, n ≤ m ∧ Q (part (r.state m)) := by
  generalize hp : part (r.state n) = p at h
  induction h generalizing n with
  | here hQ => exact ⟨n, le_refl n, hp ▸ hQ⟩
  | next henabled _ ih =>
    -- the first action of the kind from here on
    have htaken : ∃ m a, n ≤ m ∧ r.act m = some a ∧ mine a := by
      by_contra hnever
      have hidle : ∀ m, n ≤ m → part (r.state m) = part (r.state n) := fun m hm =>
        part_eq hothers hm fun k a hk _ hact ha => hnever ⟨k, a, hk, hact, ha⟩
      exact hnever (hfair n fun m hm => henabled _ ((hidle m hm).trans hp))
    classical
    obtain ⟨a, hle, hact, ha⟩ := Nat.find_spec htaken
    have hpart : part (r.state (Nat.find htaken)) = part (r.state n) :=
      part_eq hothers hle fun k b hk hlt hb hmine =>
        Nat.find_min htaken hlt ⟨b, hk, hb, hmine⟩
    obtain ⟨m, hm, hQ⟩ := ih _ a _ (hpart.trans hp) ha (r.step_of_act hact) rfl
    exact ⟨m, Nat.le_trans hle (Nat.le_of_succ_le hm), hQ⟩

/-- In the states of `P` the actions of kind `who` can be taken and bring the rank
    down, and no step brings it up or changes `who` otherwise. -/
theorem leads_of_rank {κ ρ : Type*} [LT ρ] [WellFoundedLT ρ] {mine : κ → α → Prop} (who : σ → κ)
    (rank : σ → ρ) {P Q : σ → Prop} (hfair : ∀ k, r.Fair (mine k))
    (henabled : ∀ n, P (r.state n) → Enabled step (mine (who (r.state n))) (r.state n))
    (hstep : ∀ n a, P (r.state n) → r.act n = some a → Q (r.state (n + 1)) ∨
      P (r.state (n + 1)) ∧ (rank (r.state (n + 1)) < rank (r.state n) ∨
        rank (r.state (n + 1)) = rank (r.state n) ∧ who (r.state (n + 1)) = who (r.state n) ∧
          ¬ mine (who (r.state n)) a))
    {n : ℕ} (hP : P (r.state n)) : ∃ m, n ≤ m ∧ Q (r.state m) := by
  generalize hk : rank (r.state n) = k
  induction k using WellFoundedLT.induction generalizing n with
  | ind k ih =>
  by_contra hnever
  have hQ : ∀ m, n ≤ m → ¬ Q (r.state m) := fun m hm h => hnever ⟨m, hm, h⟩
  -- the rank does not come down any more
  have hleast : ∀ m, n ≤ m → P (r.state m) → ¬ rank (r.state m) < k := by
    intro m hm hPm hlt
    obtain ⟨l, hl, hQl⟩ := ih _ hlt hPm rfl
    exact hQ l (Nat.le_trans hm hl) hQl
  have hstays : ∀ m, n ≤ m → P (r.state m) ∧ rank (r.state m) = k ∧
      who (r.state m) = who (r.state n) := by
    intro m hm
    induction m, hm using Nat.le_induction with
    | base => exact ⟨hP, hk, rfl⟩
    | succ m hm ihm =>
      obtain ⟨hPm, hrank, hwho⟩ := ihm
      cases hact : r.act m with
      | none =>
        rw [r.state_of_act_none hact]
        exact ⟨hPm, hrank, hwho⟩
      | some a =>
        obtain ⟨hPm', hcases⟩ := (hstep m a hPm hact).resolve_left (hQ _ (Nat.le_succ_of_le hm))
        rcases hcases with hlt | ⟨hrank', hwho', -⟩
        · exact absurd (hrank ▸ hlt) (hleast _ (Nat.le_succ_of_le hm) hPm')
        · exact ⟨hPm', hrank'.trans hrank, hwho'.trans hwho⟩
  obtain ⟨m, a, hm, hact, ha⟩ := hfair (who (r.state n)) n fun m hm => by
    obtain ⟨hPm, -, hwho⟩ := hstays m hm
    exact hwho ▸ henabled m hPm
  obtain ⟨hPm, hrank, hwho⟩ := hstays m hm
  obtain ⟨hPm', hcases⟩ := (hstep m a hPm hact).resolve_left (hQ _ (Nat.le_succ_of_le hm))
  rcases hcases with hlt | ⟨-, -, hother⟩
  · exact hleast _ (Nat.le_succ_of_le hm) hPm' (hrank ▸ hlt)
  · exact hother (hwho ▸ ha)

end Run

/-- A run that ends in one state is fair to what is taken there, and to what cannot
    be taken there. -/
theorem Run.fair_of_settled {r : Run step} {n : ℕ} {t : σ} {a : α}
    (h : ∀ m, n ≤ m → r.state m = t ∧ r.act m = some a) (ha : mine a ∨ ¬ Enabled step mine t) :
    r.Fair mine := by
  intro k henabled
  obtain ⟨hstate, hact⟩ := h (max n k) (le_max_left n k)
  rcases ha with ha | hdisabled
  · exact ⟨max n k, a, le_max_right n k, hact, ha⟩
  · exact absurd (hstate ▸ henabled (max n k) (le_max_right n k)) hdisabled

/-- Actions that lead to a state in which one more can be repeated for ever. -/
theorem exists_run_of_repeat {s t : σ} {as : List α} {a : α} (hok : Along step ok s as)
    (h : run step s as = some t) (hoka : ok t a) (ha : step t a = some t) :
    ∃ r : Run step, r.state 0 = s ∧ (∀ n b, r.act n = some b → ok (r.state n) b) ∧
      ∀ n, as.length ≤ n → r.state n = t ∧ r.act n = some a := by
  induction as generalizing s with
  | nil =>
    obtain rfl : s = t := Option.some.inj h
    refine ⟨⟨fun _ => s, fun _ => some a, fun _ => ha⟩, rfl, ?_, fun _ _ => ⟨rfl, rfl⟩⟩
    rintro n b ⟨⟩
    exact hoka
  | cons b as ih =>
    obtain ⟨u, hu, h⟩ := Option.bind_eq_some_iff.mp h
    obtain ⟨hokb, hok⟩ := hok
    rw [hu] at hok
    obtain ⟨r, rfl, hokr, hrepeat⟩ := ih hok h
    refine ⟨⟨fun n => n.casesOn s r.state, fun n => n.casesOn (some b) r.act, fun n => ?_⟩, rfl,
      fun n c hc => ?_, fun n hn => ?_⟩
    · cases n with
      | zero => exact hu
      | succ n => exact r.next n
    · cases n with
      | zero => exact Option.some.inj hc ▸ hokb
      | succ n => exact hokr n c hc
    · cases n with
      | zero => exact absurd hn (Nat.not_succ_le_zero _)
      | succ n => exact hrepeat n (Nat.le_of_succ_le_succ hn)

end Transitions
