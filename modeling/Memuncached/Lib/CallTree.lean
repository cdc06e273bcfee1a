import Mathlib

/-!
# Programs of atomic calls

A sequential program that acts on a shared state only through atomic calls is
a `CallTree`: it has returned, or it makes a call and goes on with the call's
result. `CallTree.run` executes it alone.

A call is *local* to a location when its result and its effect depend on, and
are confined to, the value stored there (`Locality`). `CallTree.run_local`
lifts this to programs: one whose calls all go to a location acts on that
location alone, as `CallTree.runAt` computes from the value stored there.
-/

/-- A program over calls `c : C` with results in `Res c`. -/
inductive CallTree {C : Type} (Res : C → Type) (α : Type) where
  | ret (a : α)
  | call (c : C) (k : Res c → CallTree Res α)

namespace CallTree

variable {C : Type} {Res : C → Type} {α β S L V : Type}

/-- Sequencing. -/
def bind : CallTree Res α → (α → CallTree Res β) → CallTree Res β
  | ret a, f => f a
  | call c k, f => call c fun r => bind (k r) f

instance : Monad (CallTree Res) where
  pure := ret
  bind := bind

/-- The program that makes one call and returns its result. -/
def single (c : C) : CallTree Res (Res c) := call c ret

/-- Execute a program alone, from a state to its result and the state it leaves. -/
def run (exec : (c : C) → S → Res c × S) : CallTree Res α → S → α × S
  | ret a, s => (a, s)
  | call c k, s => run exec (k (exec c s).1) (exec c s).2

/-- Whether a program has returned. -/
def result : CallTree Res α → Option α
  | ret a => some a
  | call _ _ => none

@[simp] theorem run_ret (exec : (c : C) → S → Res c × S) (a : α) (s : S) :
    run exec (ret a : CallTree Res α) s = (a, s) := rfl

@[simp] theorem run_call (exec : (c : C) → S → Res c × S) (c : C) (k : Res c → CallTree Res α)
    (s : S) : run exec (call c k) s = run exec (k (exec c s).1) (exec c s).2 := rfl

@[simp] theorem run_pure (exec : (c : C) → S → Res c × S) (a : α) (s : S) :
    run exec (pure a : CallTree Res α) s = (a, s) := rfl

@[simp] theorem run_bind (exec : (c : C) → S → Res c × S) (p : CallTree Res α)
    (f : α → CallTree Res β) (s : S) :
    run exec (p >>= f) s = run exec (f (run exec p s).1) (run exec p s).2 := by
  induction p generalizing s with
  | ret a => rfl
  | call c k ih => exact ih _ _

@[simp] theorem run_single (exec : (c : C) → S → Res c × S) (c : C) (s : S) :
    run exec (single c : CallTree Res (Res c)) s = exec c s := rfl

/-! ## Locality -/

/-- Every call of the program satisfies `P`. -/
def Calls (P : C → Prop) : CallTree Res α → Prop
  | ret _ => True
  | call c k => P c ∧ ∀ r, Calls P (k r)

theorem Calls.bind {P : C → Prop} {p : CallTree Res α} {f : α → CallTree Res β}
    (hp : Calls P p) (hf : ∀ a, Calls P (f a)) : Calls P (p >>= f) := by
  induction p with
  | ret a => exact hf a
  | call c k ih => exact ⟨hp.1, fun r => ih r (hp.2 r)⟩

theorem Calls.single {P : C → Prop} {c : C} (h : P c) :
    Calls P (CallTree.single c : CallTree Res (Res c)) := ⟨h, fun _ => trivial⟩

theorem Calls.imp {P Q : C → Prop} (h : ∀ c, P c → Q c) {p : CallTree Res α} (hp : Calls P p) :
    Calls Q p := by
  induction p with
  | ret a => trivial
  | call c k ih => exact ⟨h c hp.1, fun r => ih r (hp.2 r)⟩

/-- Calls act on one location each: on the states satisfying `inv`, which they
    preserve, call `c` computes its result and the new value of location
    `loc c` from the value there and leaves every other location as it was. -/
structure Locality (exec : (c : C) → S → Res c × S) (inv : S → Prop) (loc : C → L)
    (view : S → L → V) (execAt : (c : C) → V → Res c × V) : Prop where
  inv_exec : ∀ c s, inv s → inv (exec c s).2
  result : ∀ c s, inv s → (exec c s).1 = (execAt c (view s (loc c))).1
  view_self : ∀ c s, inv s → view (exec c s).2 (loc c) = (execAt c (view s (loc c))).2
  view_ne : ∀ c s l, inv s → l ≠ loc c → view (exec c s).2 l = view s l
  ext : ∀ s s', inv s → inv s' → (∀ l, view s l = view s' l) → s = s'

section Local

variable {exec : (c : C) → S → Res c × S} {inv : S → Prop} {loc : C → L} {view : S → L → V}
  {execAt : (c : C) → V → Res c × V}

theorem inv_run (h : Locality exec inv loc view execAt) (p : CallTree Res α) {s : S}
    (hs : inv s) : inv (run exec p s).2 := by
  induction p generalizing s with
  | ret a => exact hs
  | call c k ih => exact ih _ (h.inv_exec c s hs)

/-- A program at a single location, run on the value stored there. -/
def runAt (execAt : (c : C) → V → Res c × V) : CallTree Res α → V → α × V := run execAt

/-- A program whose calls all go to `l` returns what `runAt` returns, leaves
    there what it leaves, and changes no other location. -/
theorem run_local (h : Locality exec inv loc view execAt) {l : L} {p : CallTree Res α}
    (hp : Calls (fun c => loc c = l) p) {s : S} (hs : inv s) :
    (run exec p s).1 = (runAt execAt p (view s l)).1 ∧
    view (run exec p s).2 l = (runAt execAt p (view s l)).2 ∧
    ∀ l', l' ≠ l → view (run exec p s).2 l' = view s l' := by
  induction p generalizing s with
  | ret a => exact ⟨rfl, rfl, fun _ _ => rfl⟩
  | call c k ih =>
    obtain ⟨hc, hk⟩ := hp
    obtain ⟨h1, h2, h3⟩ := ih (exec c s).1 (hk _) (h.inv_exec c s hs)
    have hv : view (exec c s).2 l = (execAt c (view s l)).2 := by
      rw [← hc]
      exact h.view_self c s hs
    have hr : (exec c s).1 = (execAt c (view s l)).1 := by
      rw [← hc]
      exact h.result c s hs
    rw [hv, hr] at h1 h2
    refine ⟨?_, ?_, fun l' hl' => ?_⟩
    · rw [run_call, hr]
      exact h1
    · rw [run_call, hr]
      exact h2
    · rw [run_call, h3 l' hl']
      exact h.view_ne c s l' hs (hc ▸ hl')

end Local

end CallTree
