import Mathlib

/-!
# Separation logic

Programs on a heap of blocks. `malloc` hands out an address that was never handed
out before, `free` takes a block back for good, and a program that touches an
address without a live block faults. An assertion speaks about a part of the heap;
an address whose block was freed stays in it (`freed`). `Triple P c Q` says that
`c` does not fault on a heap with a part `P`, leaves a part `Q` in its place and
the rest of the heap alone, `Faults P c` that it faults on every such heap.

* `Triple.bind`, `Triple.frame`, `Triple.pre`, `Triple.post`, `Triple.ex`,
  `Triple.fact`: the structural rules.
* `Triple.malloc_bind`, `Triple.load_bind`, `Triple.update_bind`,
  `Triple.free_bind`: one rule for each operation, with the program behind it.
* `Faults.load`, `Faults.free`: use of a freed block.
* `all_extract`: an iterated conjunction, taken apart at one place.
* `Triple.run_garbage`: a program that owns nothing before and only freed blocks
  after leaves the live blocks as they were.
-/

namespace Separation

variable {B α β γ : Type}

/-! ## Heaps -/

/-- A block, or the mark that it was freed. -/
inductive Cell (B : Type) where
  | live (b : B)
  | freed

/-- A part of the heap: the cells at some of the addresses. -/
abbrev Store (B : Type) := ℕ → Option (Cell B)

/-- The heap; the addresses from `next` on were never handed out. -/
structure Heap (B : Type) where
  cell : Store B
  next : ℕ
  fresh : ∀ p, next ≤ p → cell p = none

/-- Nothing was handed out. -/
def Heap.empty : Heap B where
  cell := fun _ => none
  next := 0
  fresh _ _ := rfl

/-- The live block at an address. -/
def Heap.live (h : Heap B) (p : ℕ) : Option B :=
  match h.cell p with
  | some (.live b) => some b
  | _ => none

/-- A program on the heap; `none` is a fault. -/
abbrev HeapM (B : Type) := StateT (Heap B) Option

/-- The heap with the cell of a live block changed. -/
def Heap.set (h : Heap B) (p : ℕ) (hp : (h.live p).isSome) (c : Cell B) : Heap B where
  cell := Function.update h.cell p (some c)
  next := h.next
  fresh q hq := by
    have hne : q ≠ p := by
      rintro rfl
      rw [Heap.live, h.fresh q hq] at hp
      cases hp
    rw [Function.update_of_ne hne]
    exact h.fresh q hq

def malloc (b : B) : HeapM B ℕ := fun h =>
  some (h.next,
    { cell := Function.update h.cell h.next (some (.live b))
      next := h.next + 1
      fresh := fun q hq => by
        rw [Function.update_of_ne (by omega)]
        exact h.fresh q (by omega) })

/-- Read the live block at an address through `view`. -/
def load (view : B → Option α) (p : ℕ) : HeapM B α := fun h =>
  ((h.live p).bind view).map fun a => (a, h)

/-- Change the cell at an address with a live block. -/
def put (p : ℕ) (c : Cell B) : HeapM B Unit := fun h =>
  if hp : (h.live p).isSome then some ((), h.set p hp c) else none

/-- Write the live block at an address, by what it was. -/
def update (f : B → Option B) (p : ℕ) : HeapM B Unit := load f p >>= fun b => put p (.live b)

def free (p : ℕ) : HeapM B Unit := put p .freed

/-! ## Parts of the heap -/

/-- No address has a block in both parts. -/
def Apart (m n : Store B) : Prop := ∀ p, m p = none ∨ n p = none

def join (m n : Store B) : Store B := fun p => (m p).or (n p)

def nothing : Store B := fun _ => none

/-- The part of one cell. -/
def single (p : ℕ) (c : Cell B) : Store B := Function.update nothing p (some c)

theorem Apart.symm {m n : Store B} (h : Apart m n) : Apart n m := fun p => (h p).symm

theorem apart_nothing (m : Store B) : Apart m nothing := fun _ => Or.inr rfl

theorem join_comm {m n : Store B} (h : Apart m n) : join m n = join n m := by
  funext p
  rcases h p with hp | hp <;> simp [join, hp]

theorem join_assoc (m n k : Store B) : join (join m n) k = join m (join n k) := by
  funext p
  exact Option.or_assoc

theorem nothing_join (m : Store B) : join nothing m = m := by
  funext p
  exact Option.none_or

theorem apart_join {m n k : Store B} : Apart (join m n) k ↔ Apart m k ∧ Apart n k := by
  constructor
  · intro h
    refine ⟨fun p => ?_, fun p => ?_⟩
    · rcases h p with hp | hp
      · exact Or.inl (Option.or_eq_none_iff.mp hp).1
      · exact Or.inr hp
    · rcases h p with hp | hp
      · exact Or.inl (Option.or_eq_none_iff.mp hp).2
      · exact Or.inr hp
  · rintro ⟨hm, hn⟩ p
    rcases hm p with hp | hp
    · rcases hn p with hq | hq
      · exact Or.inl (Option.or_eq_none_iff.mpr ⟨hp, hq⟩)
      · exact Or.inr hq
    · exact Or.inr hp

/-- The rest of a heap has nothing where the part has its one cell. -/
theorem Apart.none_of_single {p : ℕ} {c : Cell B} {f : Store B} (h : Apart (single p c) f) :
    f p = none := by
  rcases h p with hp | hp
  · rw [single, Function.update_self] at hp
    cases hp
  · exact hp

theorem apart_single {p : ℕ} {c : Cell B} {f : Store B} (h : f p = none) :
    Apart (single p c) f := by
  intro q
  by_cases hq : q = p
  · exact Or.inr (hq ▸ h)
  · left
    rw [single, Function.update_of_ne hq]
    rfl

theorem join_single_self (p : ℕ) (c : Cell B) (f : Store B) : join (single p c) f p = some c := by
  rw [join, single, Function.update_self]
  rfl

theorem join_single_ne {p q : ℕ} (h : q ≠ p) (c : Cell B) (f : Store B) :
    join (single p c) f q = f q := by
  rw [join, single, Function.update_of_ne h]
  exact Option.none_or

/-- Changing the one cell of the part. -/
theorem update_join_single (p : ℕ) (c c' : Cell B) (f : Store B) :
    Function.update (join (single p c) f) p (some c') = join (single p c') f := by
  funext q
  by_cases hq : q = p
  · subst hq
    rw [Function.update_self, join_single_self]
  · rw [Function.update_of_ne hq, join_single_ne hq, join_single_ne hq]

theorem live_of_join {h : Heap B} {p : ℕ} {b : B} {f : Store B}
    (hcell : h.cell = join (single p (.live b)) f) : h.live p = some b := by
  rw [Heap.live, hcell, join_single_self]

theorem live_of_join_freed {h : Heap B} {p : ℕ} {f : Store B}
    (hcell : h.cell = join (single p .freed) f) : h.live p = none := by
  rw [Heap.live, hcell, join_single_self]

/-! ## Assertions -/

/-- A property of a part of the heap. -/
def Assertion (B : Type) := Store B → Prop

namespace Assertion

@[ext] theorem ext {P Q : Assertion B} (h : ∀ m, P m ↔ Q m) : P = Q := funext fun m => propext (h m)

/-- No cell. -/
def emp : Assertion B := fun m => m = nothing

/-- The live block at `p`, and no other cell. -/
def pointsTo (p : ℕ) (b : B) : Assertion B := fun m => m = single p (.live b)

/-- The address of a freed block, and no other cell. -/
def freed (p : ℕ) : Assertion B := fun m => m = single p .freed

/-- Freed blocks only. -/
def garbage : Assertion B := fun m => ∀ p b, m p ≠ some (.live b)

/-- Two parts. -/
def sep (P Q : Assertion B) : Assertion B :=
  fun m => ∃ m₁ m₂, Apart m₁ m₂ ∧ m = join m₁ m₂ ∧ P m₁ ∧ Q m₂

/-- A fact, about no cell. -/
def fact (φ : Prop) : Assertion B := fun m => φ ∧ m = nothing

def ex (P : γ → Assertion B) : Assertion B := fun m => ∃ x, P x m

/-- One part for each assertion. -/
def all : List (Assertion B) → Assertion B
  | [] => emp
  | P :: Ps => sep P (all Ps)

variable {P Q S : Assertion B}

theorem sep_comm (P Q : Assertion B) : sep P Q = sep Q P := by
  have hone : ∀ P Q : Assertion B, ∀ m, sep P Q m → sep Q P m := by
    rintro P Q m ⟨m₁, m₂, hapart, rfl, hp, hq⟩
    exact ⟨m₂, m₁, hapart.symm, join_comm hapart, hq, hp⟩
  exact ext fun m => ⟨hone P Q m, hone Q P m⟩

theorem sep_assoc (P Q S : Assertion B) : sep (sep P Q) S = sep P (sep Q S) := by
  apply ext
  intro m
  constructor
  · rintro ⟨-, m₃, hapart, rfl, ⟨m₁, m₂, h12, rfl, hp, hq⟩, hs⟩
    obtain ⟨h13, h23⟩ := apart_join.mp hapart
    exact ⟨m₁, join m₂ m₃, (apart_join.mpr ⟨h12.symm, h13.symm⟩).symm, join_assoc _ _ _, hp,
      m₂, m₃, h23, rfl, hq, hs⟩
  · rintro ⟨m₁, -, hapart, rfl, hp, m₂, m₃, h23, rfl, hq, hs⟩
    obtain ⟨h21, h31⟩ := apart_join.mp hapart.symm
    exact ⟨join m₁ m₂, m₃, apart_join.mpr ⟨h31.symm, h23⟩, (join_assoc _ _ _).symm,
      ⟨m₁, m₂, h21.symm, rfl, hp, hq⟩, hs⟩

theorem emp_sep (P : Assertion B) : sep emp P = P := by
  apply ext
  intro m
  constructor
  · rintro ⟨m₁, m₂, -, rfl, rfl, hp⟩
    rwa [nothing_join]
  · intro hp
    exact ⟨nothing, m, (apart_nothing m).symm, (nothing_join m).symm, rfl, hp⟩

theorem sep_emp (P : Assertion B) : sep P emp = P := by
  rw [sep_comm, emp_sep]

theorem sep_left_comm (P Q S : Assertion B) : sep P (sep Q S) = sep Q (sep P S) := by
  rw [← sep_assoc, sep_comm P Q, sep_assoc]

theorem sep_third (P Q S T : Assertion B) :
    sep P (sep Q (sep S T)) = sep S (sep P (sep Q T)) := by
  rw [sep_left_comm Q, sep_left_comm P]

theorem sep_fourth (P Q S T U : Assertion B) :
    sep P (sep Q (sep S (sep T U))) = sep T (sep P (sep Q (sep S U))) := by
  rw [sep_third Q, sep_left_comm P]

theorem fact_sep {φ : Prop} {m : Store B} : sep (fact φ) P m ↔ φ ∧ P m := by
  constructor
  · rintro ⟨m₁, m₂, -, rfl, ⟨hφ, rfl⟩, hp⟩
    rw [nothing_join]
    exact ⟨hφ, hp⟩
  · rintro ⟨hφ, hp⟩
    exact ⟨nothing, m, (apart_nothing m).symm, (nothing_join m).symm, ⟨hφ, rfl⟩, hp⟩

theorem ex_sep (P : γ → Assertion B) (Q : Assertion B) :
    sep (ex P) Q = ex fun x => sep (P x) Q := by
  apply ext
  intro m
  constructor
  · rintro ⟨m₁, m₂, hapart, rfl, ⟨x, hp⟩, hq⟩
    exact ⟨x, m₁, m₂, hapart, rfl, hp, hq⟩
  · rintro ⟨x, m₁, m₂, hapart, rfl, hp, hq⟩
    exact ⟨m₁, m₂, hapart, rfl, ⟨x, hp⟩, hq⟩

theorem sep_mono {P' Q' : Assertion B} (hP : ∀ m, P m → P' m) (hQ : ∀ m, Q m → Q' m) :
    ∀ m, sep P Q m → sep P' Q' m := by
  rintro m ⟨m₁, m₂, hapart, rfl, hp, hq⟩
  exact ⟨m₁, m₂, hapart, rfl, hP _ hp, hQ _ hq⟩

/-- An iterated conjunction, taken apart at place `i`. -/
theorem all_extract {Ps : List (Assertion B)} {i : ℕ} (hi : i < Ps.length) :
    all Ps = sep Ps[i] (all (Ps.eraseIdx i)) := by
  induction Ps generalizing i with
  | nil => exact absurd hi (Nat.not_lt_zero i)
  | cons P Ps ih =>
    cases i with
    | zero => rfl
    | succ i =>
      rw [List.eraseIdx_cons_succ, all, all, List.getElem_cons_succ,
        ih (Nat.lt_of_succ_lt_succ hi), sep_left_comm]

/-- An iterated conjunction with place `i` changed. -/
theorem all_set {Ps : List (Assertion B)} {i : ℕ} (hi : i < Ps.length) (P : Assertion B) :
    all (Ps.set i P) = sep P (all (Ps.eraseIdx i)) := by
  have hi' : i < (Ps.set i P).length := by rwa [List.length_set]
  rw [all_extract hi', List.getElem_set_self, List.eraseIdx_set_eq]

theorem all_replicate_emp (n : ℕ) : all (List.replicate n (emp : Assertion B)) = emp := by
  induction n with
  | zero => rfl
  | succ n ih => rw [List.replicate_succ, all, ih, emp_sep]

theorem emp_garbage : ∀ m : Store B, emp m → garbage m := by
  rintro m rfl p b h
  cases h

theorem freed_garbage (p : ℕ) : ∀ m : Store B, freed p m → garbage m := by
  rintro m rfl q b h
  by_cases hq : q = p
  · rw [single, hq, Function.update_self] at h
    cases h
  · rw [single, Function.update_of_ne hq] at h
    cases h

theorem garbage_sep_garbage : ∀ m : Store B, sep garbage garbage m → garbage m := by
  rintro m ⟨m₁, m₂, -, rfl, h₁, h₂⟩ p b h
  rcases Option.or_eq_some_iff.mp h with h | ⟨-, h⟩
  · exact h₁ p b h
  · exact h₂ p b h

/-- What was freed goes to the garbage. -/
theorem freed_sep_garbage (p : ℕ) : ∀ m : Store B, sep (freed p) garbage m → garbage m :=
  fun m h => garbage_sep_garbage m (sep_mono (freed_garbage p) (fun _ hm => hm) m h)

end Assertion

/-! ## Triples -/

open Assertion

/-- On a heap with a part `P` the program does not fault; it leaves a part `Q` in
    its place and the rest alone. -/
def Triple (P : Assertion B) (c : HeapM B α) (Q : α → Assertion B) : Prop :=
  ∀ (h : Heap B) (m f : Store B), Apart m f → h.cell = join m f → P m →
    ∃ a h' m', c h = some (a, h') ∧ Apart m' f ∧ h'.cell = join m' f ∧ Q a m'

/-- On a heap with a part `P` the program faults. -/
def Faults (P : Assertion B) (c : HeapM B α) : Prop :=
  ∀ (h : Heap B) (m f : Store B), Apart m f → h.cell = join m f → P m → c h = none

namespace Triple

variable {P P' S : Assertion B} {Q Q' : α → Assertion B} {c : HeapM B α}

theorem pure {a : α} (h : ∀ m, P m → Q a m) : Triple P (Pure.pure a : HeapM B α) Q :=
  fun heap m _ hapart hcell hp => ⟨a, heap, m, rfl, hapart, hcell, h m hp⟩

theorem bind {f : α → HeapM B β} {T : β → Assertion B} (hc : Triple P c Q)
    (hf : ∀ a, Triple (Q a) (f a) T) : Triple P (c >>= f) T := by
  intro h m frame hapart hcell hp
  obtain ⟨a, h', m', hrun, hapart', hcell', hq⟩ := hc h m frame hapart hcell hp
  obtain ⟨b, h'', m'', hrun', hapart'', hcell'', ht⟩ := hf a h' m' frame hapart' hcell' hq
  refine ⟨b, h'', m'', ?_, hapart'', hcell'', ht⟩
  show (c h).bind (fun r => f r.1 r.2) = _
  rw [hrun]
  exact hrun'

theorem pre (hc : Triple P c Q) (h : ∀ m, P' m → P m) : Triple P' c Q :=
  fun heap m f hapart hcell hp => hc heap m f hapart hcell (h m hp)

theorem post (hc : Triple P c Q) (h : ∀ a m, Q a m → Q' a m) : Triple P c Q' := by
  intro heap m f hapart hcell hp
  obtain ⟨a, h', m', hrun, hapart', hcell', hq⟩ := hc heap m f hapart hcell hp
  exact ⟨a, h', m', hrun, hapart', hcell', h a m' hq⟩

/-- What a program does not own it leaves alone. -/
theorem frame (hc : Triple P c Q) (S : Assertion B) :
    Triple (sep P S) c fun a => sep (Q a) S := by
  rintro heap m f hapart hcell ⟨m₁, m₂, h12, rfl, hp, hs⟩
  obtain ⟨h1f, h2f⟩ := apart_join.mp hapart
  obtain ⟨a, h', m', hrun, hapart', hcell', hq⟩ := hc heap m₁ (join m₂ f)
    (apart_join.mpr ⟨h12.symm, h1f.symm⟩).symm (hcell.trans (join_assoc _ _ _)) hp
  obtain ⟨h2', hf'⟩ := apart_join.mp hapart'.symm
  exact ⟨a, h', join m' m₂, hrun, apart_join.mpr ⟨hf'.symm, h2f⟩,
    hcell'.trans (join_assoc _ _ _).symm, m', m₂, h2'.symm, rfl, hq, hs⟩

theorem ex {P : γ → Assertion B} (h : ∀ x, Triple (P x) c Q) : Triple (Assertion.ex P) c Q :=
  fun heap m f hapart hcell ⟨x, hp⟩ => h x heap m f hapart hcell hp

theorem fact {φ : Prop} (h : φ → Triple P c Q) : Triple (sep (Assertion.fact φ) P) c Q := by
  intro heap m f hapart hcell hp
  obtain ⟨hφ, hp⟩ := fact_sep.mp hp
  exact h hφ heap m f hapart hcell hp

/-- A fact that the part implies. -/
theorem implied {φ : Prop} (hφ : ∀ m, P m → φ) (h : φ → Triple P c Q) : Triple P c Q :=
  fun heap m f hapart hcell hp => h (hφ m hp) heap m f hapart hcell hp

/-! ### The operations -/

theorem malloc (b : B) : Triple emp (Separation.malloc b) fun p => pointsTo p b := by
  rintro h m f - hcell rfl
  rw [nothing_join] at hcell
  have hnone : f h.next = none := by
    rw [← hcell]
    exact h.fresh _ le_rfl
  refine ⟨h.next, _, single h.next (.live b), rfl, apart_single hnone, ?_, rfl⟩
  funext q
  show Function.update h.cell h.next (some (.live b)) q = _
  by_cases hq : q = h.next
  · subst hq
    rw [Function.update_self, join_single_self]
  · rw [Function.update_of_ne hq, join_single_ne hq, hcell]

theorem load {view : B → Option α} {b : B} {a : α} (hb : view b = some a) (p : ℕ) :
    Triple (pointsTo p b) (Separation.load view p) fun a' =>
      sep (Assertion.fact (a' = a)) (pointsTo p b) := by
  rintro h m f hapart hcell rfl
  refine ⟨a, h, _, ?_, hapart, hcell, fact_sep.mpr ⟨rfl, rfl⟩⟩
  rw [Separation.load, live_of_join hcell, Option.bind_some, hb]
  rfl

/-- The cell of a live block is changed. -/
theorem put (p : ℕ) (b : B) (c : Cell B) :
    Triple (pointsTo p b) (Separation.put p c) fun _ m => m = single p c := by
  rintro h m f hapart hcell rfl
  have hsome : (h.live p).isSome := by
    rw [live_of_join hcell]
    rfl
  refine ⟨(), _, single p c, dif_pos hsome, apart_single hapart.none_of_single, ?_, rfl⟩
  show Function.update h.cell p (some c) = _
  rw [hcell, update_join_single]

theorem update {f : B → Option B} {b b' : B} (hb : f b = some b') (p : ℕ) :
    Triple (pointsTo p b) (Separation.update f p) fun _ => pointsTo p b' :=
  (load hb p).bind fun a => fact fun ha => by
    rw [ha]
    exact put p b (.live b')

theorem free (p : ℕ) (b : B) : Triple (pointsTo p b) (Separation.free p) fun _ => freed p :=
  put p b .freed

variable {f : α → HeapM B β} {T : β → Assertion B}

theorem malloc_bind {f : ℕ → HeapM B β} {b : B} (h : ∀ p, Triple (sep (pointsTo p b) P) (f p) T) :
    Triple P (Separation.malloc b >>= f) T :=
  (((malloc b).frame P).pre fun m hp => by rwa [emp_sep]).bind h

/-- A program on a part of what there is, with another behind it. -/
theorem frame_bind (hc : Triple P c Q) (hP : P' = sep P S)
    (h : ∀ a, Triple (sep (Q a) S) (f a) T) : Triple P' (c >>= f) T := by
  rw [hP]
  exact (hc.frame S).bind h

theorem load_bind {view : B → Option α} {p : ℕ} {b : B} {a : α} (hP : P' = sep (pointsTo p b) P)
    (hb : view b = some a) (h : Triple P' (f a) T) :
    Triple P' (Separation.load view p >>= f) T := by
  refine (load hb p).frame_bind hP fun a' => ?_
  rw [sep_assoc]
  refine fact fun ha => ?_
  rw [ha, ← hP]
  exact h

/-- A read with nothing behind it. -/
theorem load_last {view : B → Option α} {p : ℕ} {b : B} {a : α} (hP : P' = sep (pointsTo p b) P)
    (hb : view b = some a) :
    Triple P' (Separation.load view p) fun a' => sep (Assertion.fact (a' = a)) P' := by
  rw [← bind_pure (Separation.load view p)]
  exact load_bind hP hb (Triple.pure fun m hm => fact_sep.mpr ⟨rfl, hm⟩)

theorem update_bind {g : B → Option B} {f : Unit → HeapM B β} {p : ℕ} {b b' : B}
    (hP : P' = sep (pointsTo p b) P) (hb : g b = some b') (hS : sep (pointsTo p b') P = S)
    (h : Triple S (f ()) T) : Triple P' (Separation.update g p >>= f) T := by
  refine (update hb p).frame_bind hP fun _ => ?_
  rw [hS]
  exact h

/-- A write with nothing behind it. -/
theorem update_last {g : B → Option B} {p : ℕ} {b b' : B} (hP : P' = sep (pointsTo p b) P)
    (hb : g b = some b') : Triple P' (Separation.update g p) fun _ => sep (pointsTo p b') P := by
  rw [hP]
  exact (update hb p).frame P

theorem free_bind {f : Unit → HeapM B β} {p : ℕ} {b : B} (hP : P' = sep (pointsTo p b) P)
    (hS : sep (freed p) P = S) (h : Triple S (f ()) T) :
    Triple P' (Separation.free p >>= f) T := by
  refine (free p b).frame_bind hP fun _ => ?_
  rw [hS]
  exact h

/-- A block freed with nothing behind it. -/
theorem free_last {p : ℕ} {b : B} (hP : P' = sep (pointsTo p b) P) :
    Triple P' (Separation.free p) fun _ => sep (freed p) P := by
  rw [hP]
  exact (free p b).frame P

/-- A program that owns nothing before and only freed blocks after leaves the live
    blocks as they were. -/
theorem run_garbage {φ : α → Prop} (hc : Triple emp c fun a => sep (Assertion.fact (φ a)) garbage)
    (h : Heap B) : ∃ a h', c h = some (a, h') ∧ h'.live = h.live ∧ φ a := by
  obtain ⟨a, h', m', hrun, hapart, hcell, hq⟩ := hc h nothing h.cell (apart_nothing _).symm
    (nothing_join _).symm rfl
  obtain ⟨hφ, hgarbage⟩ := fact_sep.mp hq
  refine ⟨a, h', hrun, ?_, hφ⟩
  funext p
  simp only [Heap.live, hcell, join]
  rcases hapart p with hnone | hnone
  · rw [hnone, Option.none_or]
  · rw [hnone, Option.or_none]
    cases hm : m' p with
    | none => rfl
    | some c =>
      cases c with
      | freed => rfl
      | live b => exact absurd hm (hgarbage p b)

end Triple

/-! ## Faults -/

namespace Faults

variable {P P' S : Assertion B} {Q : α → Assertion B} {c : HeapM B α} {f : α → HeapM B β}

theorem pre (hc : Faults P c) (h : ∀ m, P' m → P m) : Faults P' c :=
  fun heap m f hapart hcell hp => hc heap m f hapart hcell (h m hp)

/-- A fault is a fault whatever else there is. -/
theorem frame (hc : Faults P c) (S : Assertion B) : Faults (sep P S) c := by
  rintro heap m f hapart hcell ⟨m₁, m₂, h12, rfl, hp, -⟩
  obtain ⟨h1f, -⟩ := apart_join.mp hapart
  exact hc heap m₁ (join m₂ f) (apart_join.mpr ⟨h12.symm, h1f.symm⟩).symm
    (hcell.trans (join_assoc _ _ _)) hp

theorem ex {P : γ → Assertion B} (h : ∀ x, Faults (P x) c) : Faults (Assertion.ex P) c :=
  fun heap m f hapart hcell ⟨x, hp⟩ => h x heap m f hapart hcell hp

theorem fact {φ : Prop} (h : φ → Faults P c) : Faults (sep (Assertion.fact φ) P) c := by
  intro heap m f hapart hcell hp
  obtain ⟨hφ, hp⟩ := fact_sep.mp hp
  exact h hφ heap m f hapart hcell hp

/-- A fact that the part implies. -/
theorem implied {φ : Prop} (hφ : ∀ m, P m → φ) (h : φ → Faults P c) : Faults P c :=
  fun heap m f hapart hcell hp => h (hφ m hp) heap m f hapart hcell hp

/-- Nothing follows a fault. -/
theorem bind (hc : Faults P c) : Faults P (c >>= f) := by
  intro h m frame hapart hcell hp
  show (c h).bind (fun r => f r.1 r.2) = _
  rw [hc h m frame hapart hcell hp]
  rfl

/-- A fault behind a program that does not fault. -/
theorem after (hc : Triple P c Q) (hf : ∀ a, Faults (Q a) (f a)) : Faults P (c >>= f) := by
  intro h m frame hapart hcell hp
  obtain ⟨a, h', m', hrun, hapart', hcell', hq⟩ := hc h m frame hapart hcell hp
  show (c h).bind (fun r => f r.1 r.2) = _
  rw [hrun]
  exact hf a h' m' frame hapart' hcell' hq

theorem load_bind {view : B → Option α} {p : ℕ} {b : B} {a : α} (hP : P' = sep (pointsTo p b) P)
    (hb : view b = some a) (h : Faults P' (f a)) : Faults P' (Separation.load view p >>= f) := by
  rw [hP]
  refine after ((Triple.load hb p).frame P) fun a' => ?_
  rw [sep_assoc]
  refine fact fun ha => ?_
  rw [ha, ← hP]
  exact h

theorem update_bind {g : B → Option B} {f : Unit → HeapM B β} {p : ℕ} {b b' : B}
    (hP : P' = sep (pointsTo p b) P) (hb : g b = some b') (hS : sep (pointsTo p b') P = S)
    (h : Faults S (f ())) : Faults P' (Separation.update g p >>= f) := by
  rw [hP]
  refine after ((Triple.update hb p).frame P) fun _ => ?_
  rw [hS]
  exact h

/-- A fault in a program on a part of what there is. -/
theorem frame_bind (hc : Faults P c) (hP : P' = sep P S) : Faults P' (c >>= f) := by
  rw [hP]
  exact (hc.frame S).bind

/-- Use after free. -/
theorem load (view : B → Option α) (p : ℕ) : Faults (freed p) (Separation.load view p) := by
  rintro h m f - hcell rfl
  rw [Separation.load, live_of_join_freed hcell]
  rfl

/-- Double free. -/
theorem free (p : ℕ) : Faults (freed p : Assertion B) (Separation.free p) := by
  rintro h m f - hcell rfl
  refine dif_neg ?_
  rw [live_of_join_freed hcell]
  exact Bool.false_ne_true

end Faults

end Separation
