import Memuncached.Lib.Interleave

/-!
# The commands of one client

A client carries out its commands one after the other, so their times do not
overlap, and an order that respects times has them in the client's own order.

* `step_client`: a step concerns the client that acts.
* `step_left`: it brings the client's command nearer to its end.
* `Ordered.step`: every step keeps the times of the commands in order.
* `Ordered.filter_client`: in a linearization the commands of a client are in the
  order in which it carried them out.
-/

namespace Interleave

variable {C : Type} {Res : C → Type} {α S L V K ι : Type}

/-- The commands of a client that have ended, the first one first. -/
def State.opsOf [DecidableEq ι] (s : State Res α S V K ι) (i : ι) : List (Op ι K α) :=
  (s.done.filter fun op => op.client = i).reverse

/-- A step leaves the other clients where they are. The client that acts goes on
    with its command or has ended it. -/
theorem step_client [DecidableEq ι] {T : Threads Res α S L V K} {s t : State Res α S V K ι}
    {a : Action ι K} (h : T.step s a = some t) :
    ∃ p, T.acting s a = some p ∧
      (∀ j ≠ a.client, t.current j = s.current j ∧ t.opsOf j = s.opsOf j) ∧
      ((∃ q, t.current a.client = some q ∧ q.cmd = p.cmd ∧ t.done = s.done) ∨
        ∃ op, t.current a.client = none ∧ op.client = a.client ∧ op.cmd = p.cmd ∧
          t.done = op :: s.done ∧ t.opsOf a.client = s.opsOf a.client ++ [op]) := by
  obtain ⟨p, hp, ht⟩ := Threads.step_cases h
  refine ⟨p, hp, ?_⟩
  rcases ht with rfl | ⟨reply, -, rfl⟩
  · exact ⟨fun j hj => ⟨Function.update_of_ne hj _ _, rfl⟩,
      Or.inl ⟨{ p with rest := (advance T.exec p.rest s.shared).1 },
        Function.update_self a.client _ s.current, rfl, rfl⟩⟩
  · refine ⟨fun j hj => ⟨?_, ?_⟩, Or.inr ⟨_, ?_, rfl, rfl, rfl, ?_⟩⟩
    · exact (Function.update_of_ne hj _ _).trans (Function.update_of_ne hj _ _)
    · exact congrArg List.reverse (List.filter_cons_of_neg (by simpa using Ne.symm hj))
    · exact Function.update_self a.client _ _
    · exact (congrArg List.reverse (List.filter_cons_of_pos (by simp))).trans List.reverse_cons

/-- After a step of a client its command has ended, or is left with what is behind
    the call. -/
theorem step_left [DecidableEq ι] {T : Threads Res α S L V K} {s t : State Res α S V K ι}
    {a : Action ι K} (h : T.step s a = some t) :
    ∃ p, T.acting s a = some p ∧
      (t.current a.client = none ∨ ∃ c k r, p.rest = .call c k ∧
        t.current a.client = some { p with rest := k r }) := by
  obtain ⟨p, hp, rfl⟩ := Option.map_eq_some_iff.mp h
  refine ⟨p, hp, ?_⟩
  cases hrest : p.rest with
  | ret reply => exact Or.inl (Function.update_self _ _ _)
  | call c k =>
    dsimp only [advance]
    cases hleft : k (T.exec c s.shared).1 with
    | ret reply => exact Or.inl (Function.update_self _ _ _)
    | call c' k' =>
      refine Or.inr ⟨c, k, (T.exec c s.shared).1, rfl, ?_⟩
      rw [hleft]
      exact Function.update_self _ _ _

/-- The times of a client's commands do not overlap. -/
structure Ordered (s : State Res α S V K ι) : Prop where
  within : ∀ op ∈ s.done, op.start < op.finish ∧ op.finish ≤ s.time
  current : ∀ i p, s.current i = some p →
    p.start < s.time ∧ ∀ op ∈ s.done, op.client = i → op.finish ≤ p.start
  apart : s.done.Pairwise fun later earlier =>
    later.client = earlier.client → earlier.finish ≤ later.start

theorem ordered_initial (shared : S) : Ordered (State.initial shared : State Res α S V K ι) where
  within op hop := by cases hop
  current i p hp := by cases hp
  apart := List.Pairwise.nil

section Ordered

variable [DecidableEq ι] {T : Threads Res α S L V K} {s t : State Res α S V K ι}

omit [DecidableEq ι] in
/-- The command whose call it is began behind the client's last one. -/
theorem Ordered.acting (h : Ordered s) {a : Action ι K} {p : Pending Res α V K}
    (hp : T.acting s a = some p) :
    p.start ≤ s.time ∧ ∀ op ∈ s.done, op.client = a.client → op.finish ≤ p.start := by
  cases a with
  | start i cmd =>
    obtain ⟨-, rfl⟩ := Threads.acting_start hp
    exact ⟨le_refl _, fun op hop _ => (h.within op hop).2⟩
  | next i =>
    obtain ⟨hlt, hbefore⟩ := h.current i p hp
    exact ⟨hlt.le, hbefore⟩

/-- A call is made a moment later. -/
theorem Ordered.called (h : Ordered s) {i : ι} {p : Pending Res α V K} (hle : p.start ≤ s.time)
    (hbefore : ∀ op ∈ s.done, op.client = i → op.finish ≤ p.start) (rest : CallTree Res α)
    (shared : S) : Ordered (s.called i p rest shared) where
  within op hop := by
    obtain ⟨hlt, hfinish⟩ := h.within op hop
    exact ⟨hlt, Nat.le_succ_of_le hfinish⟩
  current j q hq := by
    show q.start < s.time + 1 ∧ _
    by_cases hj : j = i
    · subst hj
      obtain rfl : { p with rest := rest } = q :=
        Option.some.inj ((Function.update_self j _ s.current).symm.trans hq)
      exact ⟨Nat.lt_succ_of_le hle, hbefore⟩
    · obtain ⟨hlt, hfinish⟩ := h.current j q ((Function.update_of_ne hj _ _).symm.trans hq)
      exact ⟨Nat.lt_succ_of_lt hlt, hfinish⟩
  apart := h.apart

/-- A command that ends is the client's last one. -/
theorem Ordered.ended (h : Ordered s) {i : ι} {p : Pending Res α V K} (hlt : p.start < s.time)
    (hbefore : ∀ op ∈ s.done, op.client = i → op.finish ≤ p.start) (reply : α) :
    Ordered (s.ended i p reply) where
  within op hop := by
    rcases List.mem_cons.mp hop with rfl | hop
    · exact ⟨hlt, le_refl _⟩
    · exact h.within op hop
  current j q hq := by
    by_cases hj : j = i
    · subst hj
      cases (Function.update_self j _ s.current).symm.trans hq
    · obtain ⟨hstart, hfinish⟩ := h.current j q ((Function.update_of_ne hj _ _).symm.trans hq)
      refine ⟨hstart, fun op hop hclient => ?_⟩
      rcases List.mem_cons.mp hop with rfl | hop
      · exact absurd hclient.symm hj
      · exact hfinish op hop hclient
  apart := List.pairwise_cons.mpr ⟨fun op hop hclient => hbefore op hop hclient.symm, h.apart⟩

theorem Ordered.step (h : Ordered s) {a : Action ι K} (hstep : T.step s a = some t) :
    Ordered t := by
  obtain ⟨p, hp, ht⟩ := Threads.step_cases hstep
  obtain ⟨hle, hbefore⟩ := h.acting hp
  have hcalled := h.called hle hbefore
  rcases ht with rfl | ⟨reply, -, rfl⟩
  · exact hcalled _ _
  · exact (hcalled _ _).ended (Nat.lt_succ_of_le hle) hbefore reply

omit [DecidableEq ι] in
/-- Of two commands of a client one ended before the other began. -/
theorem Ordered.apart_or (h : Ordered s) {a b : Op ι K α} (ha : a ∈ s.done) (hb : b ∈ s.done)
    (hne : a ≠ b) (hclient : a.client = b.client) : b.finish ≤ a.start ∨ a.finish ≤ b.start := by
  have hsymm : Std.Symm fun x y : Op ι K α =>
      x.client = y.client → y.finish ≤ x.start ∨ x.finish ≤ y.start :=
    ⟨fun x y hxy hclient => (hxy hclient.symm).symm⟩
  have hpairs := h.apart.imp fun {x y} hxy =>
    (fun hclient => Or.inl (hxy hclient) :
      x.client = y.client → y.finish ≤ x.start ∨ x.finish ≤ y.start)
  exact hpairs.forall ha hb hne hclient

/-- A linearization has the commands of a client in the client's order. -/
theorem Ordered.filter_client (h : Ordered s) {order : List (Op ι K α)}
    (hperm : order.Perm s.done) (htimes : Threads.RealTime order) (i : ι) :
    (order.filter fun op => op.client = i) = s.opsOf i := by
  have hmem : ∀ op ∈ s.done.filter fun op => op.client = i, op ∈ s.done ∧ op.client = i := by
    intro op hop
    simpa using hop
  have happart := h.apart.filter fun op => decide (op.client = i)
  have hsame : (order.filter fun op => op.client = i).Perm (s.opsOf i) :=
    (hperm.filter _).trans (List.reverse_perm _).symm
  have htimes' : (order.filter fun op => op.client = i).Pairwise fun a b =>
      ¬ b.finish ≤ a.start := htimes.filter _
  refine List.Perm.eq_of_pairwise ?_ htimes' ?_ hsame
  · -- two commands of the client are apart
    intro a b ha hb hab hba
    by_contra hne
    obtain ⟨ha, hac⟩ := hmem a (List.mem_reverse.mp (hsame.mem_iff.mp ha))
    obtain ⟨hb, hbc⟩ := hmem b (List.mem_reverse.mp hb)
    rcases h.apart_or ha hb hne (hac.trans hbc.symm) with hlater | hlater
    · exact hab hlater
    · exact hba hlater
  · rw [State.opsOf, List.pairwise_reverse]
    refine List.Pairwise.imp_of_mem ?_ happart
    intro later earlier hlater hearlier hapart
    obtain ⟨hl, hlc⟩ := hmem later hlater
    obtain ⟨he, hec⟩ := hmem earlier hearlier
    have hle := hapart (hlc.trans hec.symm)
    have := h.within later hl
    have := h.within earlier he
    omega

end Ordered

end Interleave
