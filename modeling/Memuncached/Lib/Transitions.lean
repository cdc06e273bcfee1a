import Mathlib.Data.Option.Basic
import Mathlib.Logic.Function.Basic

/-!
# Transition systems

A partial step function `σ → α → Option σ` on labelled actions; an action that
is not enabled has no successor. `ok s a` is a side condition on the steps of a
run: `Reaches` goes through such steps only, and with `fun _ _ => True` it is
reachability.

* `Reaches.invariant`: what holds at the start and is kept by every step that
  meets the condition holds in every state reached.
* `run_reaches`: actions that run through and meet the condition end in a
  reached state.
* `run_of_along`: actions that meet the condition run through, if that is enough
  for every step.
* `Until`: every run comes to a state of one kind through states of another.
-/

namespace Transitions

variable {σ α : Type*}

/-- `s` is reached from an initial state by steps that meet `ok`. -/
inductive Reaches (step : σ → α → Option σ) (ok : σ → α → Prop) (init : σ → Prop) : σ → Prop
  | init {s : σ} : init s → Reaches step ok init s
  | step {s t : σ} {a : α} : Reaches step ok init s → ok s a → step s a = some t →
      Reaches step ok init t

variable {step : σ → α → Option σ} {ok : σ → α → Prop} {init : σ → Prop}

theorem Reaches.invariant {P : σ → Prop} (hinit : ∀ s, init s → P s)
    (hstep : ∀ s a t, P s → ok s a → step s a = some t → P t) {s : σ}
    (hs : Reaches step ok init s) : P s := by
  induction hs with
  | init h => exact hinit _ h
  | step _ hok h ih => exact hstep _ _ _ ih hok h

/-- The state after the actions, one after the other. -/
def run (step : σ → α → Option σ) : σ → List α → Option σ
  | s, [] => some s
  | s, a :: as => (step s a).bind fun t => run step t as

/-- Every step of the actions meets `ok`. -/
def Along (step : σ → α → Option σ) (ok : σ → α → Prop) : σ → List α → Prop
  | _, [] => True
  | s, a :: as => ok s a ∧ (step s a).elim True fun t => Along step ok t as

theorem run_reaches {s t : σ} {as : List α} (hs : Reaches step ok init s)
    (hok : Along step ok s as) (h : run step s as = some t) : Reaches step ok init t := by
  induction as generalizing s with
  | nil =>
    injection h with h
    rwa [← h]
  | cons a as ih =>
    obtain ⟨u, hu, h⟩ := Option.bind_eq_some_iff.mp h
    obtain ⟨ha, has⟩ := hok
    rw [hu] at has
    exact ih (.step hs ha hu) has h

/-- Actions that meet the condition run through where it is what a step needs. -/
theorem run_of_along {P : σ → Prop} (hstep : ∀ s a, P s → ok s a → ∃ t, step s a = some t ∧ P t)
    {s : σ} (hs : P s) {as : List α} (hok : Along step ok s as) :
    ∃ t, run step s as = some t ∧ P t := by
  induction as generalizing s with
  | nil => exact ⟨s, rfl, hs⟩
  | cons a as ih =>
    obtain ⟨ha, has⟩ := hok
    obtain ⟨u, hu, hPu⟩ := hstep s a hs ha
    rw [hu] at has
    obtain ⟨t, ht, hPt⟩ := ih hPu has
    exact ⟨t, by rw [run, hu, Option.bind_some, ht], hPt⟩

theorem along_trivial (s : σ) (as : List α) : Along step (fun _ _ => True) s as := by
  induction as generalizing s with
  | nil => trivial
  | cons a as ih =>
    refine ⟨trivial, ?_⟩
    cases step s a with
    | none => trivial
    | some t => exact ih t

/-! ## What every run comes to -/

/-- `I` holds in `s` and goes on to hold in every run until `P` does, which is
    after finitely many steps, and at least one. -/
inductive Until (step : σ → α → Option σ) (I P : σ → Prop) : σ → Prop
  | intro {s : σ} : I s → (∃ a t, step s a = some t) →
      (∀ a t, step s a = some t → ¬ P t → Until step I P t) → Until step I P s

variable {I P : σ → Prop}

theorem Until.here {s : σ} (h : Until step I P s) : I s := by
  obtain ⟨hI, -, -⟩ := h
  exact hI

theorem Until.after {s t : σ} {a : α} (h : Until step I P s) (hstep : step s a = some t) :
    P t ∨ Until step I P t := by
  obtain ⟨-, -, hnext⟩ := h
  by_cases ht : P t
  · exact Or.inl ht
  · exact Or.inr (hnext a t hstep ht)

/-- Where `P` or the like is ahead after every step. -/
theorem Until.next {s : σ} (hI : I s) (henabled : ∃ a t, step s a = some t)
    (hstep : ∀ a t, step s a = some t → P t ∨ Until step I P t) : Until step I P s :=
  .intro hI henabled fun a t ht hP => (hstep a t ht).resolve_left hP

end Transitions
