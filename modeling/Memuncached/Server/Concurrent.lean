import Memuncached.Server.FailedRequest
import Memuncached.Server.Linearizable
import Memuncached.Server.TableRun

/-!
# What clients see of each other

Consequences of a linearizable history (`Threads.Linearizable`) for the commands
on one slot, whatever happens on the others.

* `adds_succeed_once`: of the ADDs of an absent key exactly one succeeds.
* `incs_answer_apart`: INCs that each add 1 answer with different numbers.
* `dels_answer_once`: at most one DEL answers with the value.
* `gets_find`: GET finds a key that is only ever SET.
-/

namespace Memuncached.Server

open Interleave

section Concurrent

variable {R : Type} [CacheValueReal R]

/-! ## Commands on their slot -/

namespace TableCommand

/-- A command on the contents of its slot. -/
def onSlot (cmd : TableCommand) (v : Option (CacheValue R)) :
    Option (List (List Byte)) × Option (CacheValue R) :=
  CallTree.runAt TableCall.execAt cmd.prog v

/-- SET or ADD of a payload that was read whole, with one of the three types. -/
def Stores (overwrite : Bool) : TableCommand → Prop
  | set _ type vLength payload overwrite' =>
    overwrite' = overwrite ∧ vLength + 2 ≤ intMax ∧ (putTerminators payload vLength).isSome ∧
      ¬ RefusedType type
  | _ => False

end TableCommand

theorem get_onSlot (key : List Byte) (v : Option (CacheValue R)) :
    (TableCommand.get key).onSlot v = (answer v, v) := by
  cases v with
  | none => rfl
  | some v => rfl

theorem del_onSlot (key : List Byte) (v : Option (CacheValue R)) :
    (TableCommand.del key).onSlot v = (answer v, if answer v = none then v else none) := by
  have hget := get_onSlot key v
  unfold TableCommand.onSlot CallTree.runAt TableCommand.prog at hget ⊢
  unfold memuncachedDel
  rw [CallTree.run_bind, hget]
  cases answer v <;> rfl

/-- What `memuncached_set` does behind the existence check. -/
theorem setValue_onSlot (key : List Byte) {type : List Byte} {vLength : ℤ}
    {payload : Option (List Byte)} (hroom : (putTerminators payload vLength).isSome)
    (htype : ¬ RefusedType type) (v : Option (CacheValue R)) :
    ∃ x, CallTree.runAt TableCall.execAt (setValue key type vLength payload) v =
      (some [replySuccess []], some x) := by
  obtain ⟨buffer, hbuffer⟩ := Option.isSome_iff_exists.mp hroom
  rw [← @setResult_eq_none R _ key type vLength buffer] at htype
  unfold setResult at htype
  unfold CallTree.runAt setValue
  rw [CallTree.run_bind, hbuffer]
  dsimp only
  split_ifs at htype ⊢ with h0 h1 h2
  · exact ⟨_, rfl⟩
  · exact ⟨_, rfl⟩
  · exact ⟨_, rfl⟩
  · exact absurd rfl htype

theorem set_onSlot {cmd : TableCommand} (h : cmd.Stores true) (v : Option (CacheValue R)) :
    ∃ x, cmd.onSlot v = (some [replySuccess []], some x) := by
  cases cmd with
  | set key type vLength payload overwrite =>
    obtain ⟨rfl, -, hroom, htype⟩ := h
    exact setValue_onSlot key hroom htype v
  | _ => cases h

theorem add_onSlot_none {cmd : TableCommand} (h : cmd.Stores false) :
    ∃ x : CacheValue R, cmd.onSlot none = (some [replySuccess []], some x) := by
  cases cmd with
  | set key type vLength payload overwrite =>
    obtain ⟨rfl, -, hroom, htype⟩ := h
    exact setValue_onSlot key hroom htype none
  | _ => cases h

theorem add_onSlot_some {cmd : TableCommand} (h : cmd.Stores false) (x : CacheValue R) :
    cmd.onSlot (some x) = (some [replyKeyExists], some x) := by
  cases cmd with
  | set key type vLength payload overwrite =>
    obtain ⟨rfl, -⟩ := h
    rfl
  | _ => cases h

/-- INC of a decimal. -/
theorem inc_onSlot (key : List Byte) (offset initial : Option (List Byte)) {x : CacheValue R}
    (hx : x.type = cacheValueDecimal) :
    (TableCommand.inc key offset initial).onSlot (some x) =
      (answer (some (x.update CacheValueReal.add (vOffset offset))),
        some (x.update CacheValueReal.add (vOffset offset))) := by
  have hne : x.type ≠ cacheValueString := by
    rw [hx]
    decide
  have hinc : CallTree.run TableCall.execAt (TableProg.inc key (vOffset offset)) (some x) =
      (some (x.update CacheValueReal.add (vOffset offset)),
        some (x.update CacheValueReal.add (vOffset offset))) := if_neg hne
  unfold TableCommand.onSlot CallTree.runAt TableCommand.prog memuncachedInc memuncachedUpdate
  dsimp only
  rw [CallTree.run_bind, hinc]
  exact get_onSlot key (some (x.update CacheValueReal.add (vOffset offset)))

/-- A program of valid calls keeps the value of its slot of the kind its type says. -/
theorem runAt_wellFormed {α : Type} {p : TableProg R α} (hp : ValidCalls p)
    {v : Option (CacheValue R)} (h : ∀ x ∈ v, x.WellFormed) :
    ∀ x ∈ (CallTree.runAt TableCall.execAt p v).2, x.WellFormed := by
  induction p generalizing v with
  | ret a => exact h
  | call c k ih =>
    exact ih (c.execAt v).1 (hp.2 _) (TableCall.execAt_wellFormed hp.1 h)

/-! ## Linearizable histories on one slot -/

/-- The ended commands on the slot of a key. -/
def opsOn {ι : Type} (size : ℕ) (key : List Byte)
    (ops : List (Op ι TableCommand (Option (List (List Byte))))) :
    List (Op ι TableCommand (Option (List (List Byte)))) :=
  ops.filter fun op => (fnv1a op.cmd.key).toNat % size = (fnv1a key).toNat % size

variable {ι : Type} {t₀ : HashTable R}
  {s : State (TableCall.Result (R := R)) (Option (List (List Byte))) (HashTable R)
    (Option (CacheValue R)) TableCommand ι}

/-- The commands on the slot of a key, one at a time from what the key has. -/
theorem linearizable_onSlot (h₀ : t₀.CountOk) (h : (tableThreads R t₀.size).Linearizable t₀ s)
    (key : List Byte) :
    ∃ order : List (Op ι TableCommand (Option (List (List Byte)))),
      order.Perm (opsOn t₀.size key s.done) ∧ ∃ v,
        (tableThreads R t₀.size).ReplaysAt (hashTableGet t₀ key) order v := by
  obtain ⟨order, hperm, hreplays⟩ :=
    h.replaysAt (tableThreads_local t₀.size) ⟨rfl, h₀⟩ ((fnv1a key).toNat % t₀.size)
  exact ⟨order, hperm, _, hreplays⟩

theorem replaysAt_cons {size : ℕ} {v v' : Option (CacheValue R)}
    {op : Op ι TableCommand (Option (List (List Byte)))}
    {ops : List (Op ι TableCommand (Option (List (List Byte))))} :
    (tableThreads R size).ReplaysAt v (op :: ops) v' ↔
      (op.cmd.onSlot v).1 = op.reply ∧
        (tableThreads R size).ReplaysAt (op.cmd.onSlot v).2 ops v' := Iff.rfl

/-! ### ADD -/

/-- ADDs of a key that has a value all fail. -/
theorem adds_keyExists {size : ℕ} {x : CacheValue R} {v : Option (CacheValue R)}
    {order : List (Op ι TableCommand (Option (List (List Byte))))}
    (h : (tableThreads R size).ReplaysAt (some x) order v)
    (hadds : ∀ op ∈ order, op.cmd.Stores false) :
    ∀ op ∈ order, op.reply = some [replyKeyExists] := by
  refine Threads.ReplaysAt.forall (P := (· = some x)) (fun v op hv hadd hreply => ?_) h rfl hadds
  subst hv
  have hslot := add_onSlot_some hadd x
  exact ⟨congrArg Prod.snd hslot, hreply.symm.trans (congrArg Prod.fst hslot)⟩

/-- Of the ADDs of an absent key exactly one succeeds. -/
theorem adds_succeed_once (h₀ : t₀.CountOk) (h : (tableThreads R t₀.size).Linearizable t₀ s)
    {key : List Byte} (habsent : hashTableGet t₀ key = none)
    (hadds : ∀ op ∈ opsOn t₀.size key s.done, op.cmd.Stores false)
    (hsome : opsOn t₀.size key s.done ≠ []) :
    (opsOn t₀.size key s.done).countP (fun op => op.reply = some [replySuccess []]) = 1 := by
  obtain ⟨order, hperm, v, hreplays⟩ := linearizable_onSlot h₀ h key
  rw [← hperm.countP_eq]
  cases order with
  | nil => exact absurd hperm.nil_eq.symm hsome
  | cons first order =>
    have hall : ∀ op ∈ first :: order, op.cmd.Stores false :=
      fun op hop => hadds op (hperm.mem_iff.mp hop)
    obtain ⟨x, hfirst⟩ := add_onSlot_none (R := R) (hall first List.mem_cons_self)
    rw [habsent] at hreplays
    obtain ⟨hreply, hrest⟩ := replaysAt_cons.mp hreplays
    rw [hfirst] at hreply hrest
    have hfail := adds_keyExists hrest fun op hop => hall op (List.mem_cons_of_mem _ hop)
    have hnone : order.countP (fun op => op.reply = some [replySuccess []]) = 0 := by
      refine List.countP_eq_zero.mpr fun op hop => ?_
      rw [hfail op hop]
      decide
    rw [List.countP_cons_of_pos (by simp [← hreply]), hnone]

/-! ### DEL -/

/-- The command is GET or DEL. -/
def TableCommand.Reads : TableCommand → Prop
  | .get _ => True
  | .del _ => True
  | _ => False

/-- The command is a DEL that answers with a value. -/
def answersDel {ι : Type} (op : Op ι TableCommand (Option (List (List Byte)))) : Bool :=
  match op.cmd with
  | .del _ => op.reply != none && op.reply != some [replyNotFound]
  | _ => false

/-- Nothing is read where there is nothing. -/
theorem dels_notFound {size : ℕ} {v : Option (CacheValue R)}
    {order : List (Op ι TableCommand (Option (List (List Byte))))}
    (h : (tableThreads R size).ReplaysAt none order v) (hreads : ∀ op ∈ order, op.cmd.Reads) :
    order.countP answersDel = 0 := by
  refine List.countP_eq_zero.mpr (Threads.ReplaysAt.forall (P := (· = none))
    (fun v op hv hread hreply => ?_) h rfl hreads)
  subst hv
  cases hcmd : op.cmd with
  | get key => exact ⟨rfl, by simp [answersDel, hcmd]⟩
  | del key =>
    rw [hcmd] at hreply
    have hslot := del_onSlot key (none : Option (CacheValue R))
    rw [ite_self] at hslot
    have hnot : op.reply = some [replyNotFound] := hreply.symm.trans (congrArg Prod.fst hslot)
    exact ⟨congrArg Prod.snd hslot, by simp [answersDel, hcmd, hnot]⟩
  | _ =>
    rw [hcmd] at hread
    cases hread

/-- At most one DEL answers with the value. -/
theorem dels_answer_once (h₀ : t₀.CountOk) (h : (tableThreads R t₀.size).Linearizable t₀ s)
    {key : List Byte} (hreads : ∀ op ∈ opsOn t₀.size key s.done, op.cmd.Reads) :
    (opsOn t₀.size key s.done).countP answersDel ≤ 1 := by
  obtain ⟨order, hperm, v, hreplays⟩ := linearizable_onSlot h₀ h key
  rw [← hperm.countP_eq]
  replace hreads : ∀ op ∈ order, op.cmd.Reads := fun op hop => hreads op (hperm.mem_iff.mp hop)
  clear hperm
  generalize hashTableGet t₀ key = value at hreplays
  induction order with
  | nil => exact Nat.zero_le 1
  | cons first order ih =>
    obtain ⟨hreply, hrest⟩ := replaysAt_cons.mp hreplays
    have hrest' := fun op hop => hreads op (List.mem_cons_of_mem _ hop)
    have hfirst := hreads first List.mem_cons_self
    cases hcmd : first.cmd with
    | get key =>
      rw [hcmd, get_onSlot] at hrest
      rw [List.countP_cons_of_neg (by simp [answersDel, hcmd])]
      exact ih hrest' hrest
    | del key =>
      rw [hcmd, del_onSlot] at hreply hrest
      by_cases hanswer : answer value = none
      · -- the answer does not fit, and the value stays
        rw [if_pos hanswer] at hrest
        have hnone : first.reply = none := hreply.symm.trans hanswer
        rw [List.countP_cons_of_neg (by simp [answersDel, hcmd, hnone])]
        exact ih hrest' hrest
      · rw [if_neg hanswer] at hrest
        have hzero := dels_notFound hrest hrest'
        rw [List.countP_cons, hzero]
        split_ifs <;> omega
    | _ =>
      rw [hcmd] at hfirst
      cases hfirst

/-! ### GET -/

/-- The command is GET, or a SET that stores. -/
def TableCommand.Refreshes : TableCommand → Prop
  | .get _ => True
  | .set key type vLength payload overwrite =>
    (TableCommand.set key type vLength payload overwrite).Stores true
  | _ => False

/-- Such a command leaves a value where there is one, and does not answer 404. -/
theorem refreshes_finds {op : Op ι TableCommand (Option (List (List Byte)))}
    (h : op.cmd.Refreshes) {x : CacheValue R} (hwf : ∀ y ∈ some x, y.WellFormed)
    (hreply : (op.cmd.onSlot (some x)).1 = op.reply) :
    ((op.cmd.onSlot (some x)).2 ≠ none ∧ ∀ y ∈ (op.cmd.onSlot (some x)).2, y.WellFormed) ∧
      op.reply ≠ some [replyNotFound] := by
  rw [← hreply]
  cases hcmd : op.cmd with
  | get key =>
    rw [get_onSlot]
    refine ⟨⟨Option.some_ne_none x, hwf⟩, fun hanswer => ?_⟩
    exact answer_some_isOk (fun _ => hwf x rfl) hanswer
      ⟨replyNotFound, List.mem_cons_self, not_isOk_responseWrite (by decide) (by decide) []⟩
  | set key type vLength payload overwrite =>
    rw [hcmd] at h
    have hwf' := runAt_wellFormed (setTable_valid key type h.2.1 payload overwrite) hwf
    have hstores : (TableCommand.set key type vLength payload overwrite).Stores true := h
    obtain ⟨y, hy⟩ := set_onSlot hstores (some x)
    refine ⟨⟨?_, hwf'⟩, ?_⟩
    · rw [hy]
      exact Option.some_ne_none y
    · rw [hy]
      show some [replySuccess []] ≠ some [replyNotFound]
      decide
  | _ =>
    rw [hcmd] at h
    cases h

/-- No GET answers 404 where there is a value and SET replaces it only. -/
theorem gets_find (h₀ : Reachable t₀) (h : (tableThreads R t₀.size).Linearizable t₀ s)
    {key : List Byte} (hpresent : hashTableGet t₀ key ≠ none)
    (hcmds : ∀ op ∈ opsOn t₀.size key s.done, op.cmd.Refreshes) :
    ∀ op ∈ opsOn t₀.size key s.done, op.reply ≠ some [replyNotFound] := by
  obtain ⟨order, hperm, v, hreplays⟩ := linearizable_onSlot h₀.countOk h key
  have hwf : ∀ x ∈ hashTableGet t₀ key, x.WellFormed := h₀.wellFormed (t₀.index key)
  intro op hop
  refine Threads.ReplaysAt.forall (A := fun op => op.cmd.Refreshes)
    (P := fun value => value ≠ none ∧ ∀ x ∈ value, x.WellFormed)
    (Q := fun op => op.reply ≠ some [replyNotFound]) (fun value op hv hcmd hreply => ?_)
    hreplays ⟨hpresent, hwf⟩ (fun op hop => hcmds op (hperm.mem_iff.mp hop)) op
    (hperm.mem_iff.mpr hop)
  obtain ⟨hsome, hwf⟩ := hv
  obtain ⟨x, rfl⟩ := Option.ne_none_iff_exists'.mp hsome
  exact refreshes_finds hcmd hwf hreply

/-! ### INC -/

/-- The reply to a decimal says which. -/
theorem numberReply_injective {m n : Int64}
    (h : numberReply cacheValueDecimal (fmtD m.toInt) =
      numberReply cacheValueDecimal (fmtD n.toInt)) : m = n := by
  have hhead : ∀ rest : List Byte, ∀ b ∈ (32 :: rest).head?, isDigit b = false := by
    intro rest b hb
    obtain rfl : 32 = b := Option.some.inj hb
    decide
  simp only [numberReply, List.append_assoc, List.cons_append, List.append_cancel_left_eq] at h
  -- the length, then the text
  have hmlen := length_fmtD_le m
  have hnlen := length_fmtD_le n
  have hlength := congrArg strtol h
  rw [strtol_fmtD (by unfold int64Min; omega) (by unfold int64Max; omega) (hhead _),
    strtol_fmtD (by unfold int64Min; omega) (by unfold int64Max; omega) (hhead _)] at hlength
  rw [hlength] at h
  have htext := List.append_cancel_left h
  simp only [List.cons.injEq, true_and, List.append_cancel_left_eq] at htext
  have htext' := congrArg atoll htext
  have hzero : ∀ b ∈ ((0 : Byte) :: crlf).head?, isDigit b = false := by
    intro b hb
    obtain rfl : 0 = b := Option.some.inj hb
    decide
  rwa [atoll_fmtD m hzero, atoll_fmtD n hzero] at htext'

/-- INC by one. -/
def TableCommand.IncsByOne (R : Type) [CacheValueReal R] : TableCommand → Prop
  | .inc _ offset _ => (vOffset offset : R) = CacheValueReal.ofInt 1
  | _ => False

/-- Adding 1 to a number from `low` on, and below `high`, counts it up. -/
def CountsUp (R : Type) [CacheValueReal R] (low high : ℤ) : Prop :=
  ∀ n : Int64, low ≤ n.toInt → n.toInt < high →
    (CacheValueReal.toInt64 (CacheValueReal.add (CacheValueReal.ofInt n.toInt)
      (CacheValueReal.ofInt 1) : R)).toInt = n.toInt + 1

/-- INCs of a decimal answer with larger and larger numbers. -/
theorem incs_answer_above {size : ℕ} {x : CacheValue R} {v : Option (CacheValue R)}
    {order : List (Op ι TableCommand (Option (List (List Byte))))} {high : ℤ}
    (h : (tableThreads R size).ReplaysAt (some x) order v)
    (hincs : ∀ op ∈ order, op.cmd.IncsByOne R) (hx : x.type = cacheValueDecimal)
    (hup : CountsUp R x.value.asDecimal.toInt high)
    (hhigh : x.value.asDecimal.toInt + order.length ≤ high) :
    (order.map Op.reply).Nodup ∧ ∀ op ∈ order, ∃ n : Int64, x.value.asDecimal.toInt < n.toInt ∧
      op.reply = some [numberReply cacheValueDecimal (fmtD n.toInt)] := by
  induction order generalizing x with
  | nil => exact ⟨List.nodup_nil, fun op hop => absurd hop List.not_mem_nil⟩
  | cons first order ih =>
    obtain ⟨hreply, hrest⟩ := replaysAt_cons.mp h
    have hfirst := hincs first List.mem_cons_self
    rw [List.length_cons] at hhigh
    push_cast at hhigh
    cases hcmd : first.cmd with
    | inc key offset initial =>
      rw [hcmd] at hfirst
      have hone : (vOffset offset : R) = CacheValueReal.ofInt 1 := hfirst
      rw [hcmd, inc_onSlot key offset initial hx, hone] at hreply hrest
      set y := x.update CacheValueReal.add (CacheValueReal.ofInt 1) with hy
      have hytype : y.type = cacheValueDecimal := hx
      have hyval : y.value.asDecimal.toInt = x.value.asDecimal.toInt + 1 := by
        have hvalue : y.value = .decimal (CacheValueReal.toInt64 (CacheValueReal.add
            (CacheValueReal.ofInt x.value.asDecimal.toInt) (CacheValueReal.ofInt 1) : R)) :=
          if_pos hx
        rw [hvalue]
        exact hup _ (le_refl _) (by omega)
      have hanswer : first.reply =
          some [numberReply cacheValueDecimal (fmtD y.value.asDecimal.toInt)] := by
        rw [← hreply]
        show (getReply y).map _ = _
        unfold getReply
        rw [if_pos hytype, hytype]
        rfl
      obtain ⟨hnodup, habove⟩ := ih hrest (fun op hop => hincs op (List.mem_cons_of_mem _ hop))
        hytype (fun n hlow => hup n (by omega)) (by omega)
      refine ⟨List.nodup_cons.mpr ⟨fun hmem => ?_, hnodup⟩, fun op hop => ?_⟩
      · obtain ⟨op, hop, hsame⟩ := List.mem_map.mp hmem
        obtain ⟨n, hn, hnreply⟩ := habove op hop
        rw [hsame, hanswer] at hnreply
        have hlist := Option.some.inj hnreply
        rw [List.cons.injEq] at hlist
        have := numberReply_injective hlist.1
        rw [this] at hn
        exact lt_irrefl _ hn
      · rcases List.mem_cons.mp hop with rfl | hop
        · exact ⟨_, by omega, hanswer⟩
        · obtain ⟨n, hn, hnreply⟩ := habove op hop
          exact ⟨n, by omega, hnreply⟩
    | _ =>
      rw [hcmd] at hfirst
      cases hfirst

/-- INCs that each add 1 to a decimal all answer with different numbers. -/
theorem incs_answer_apart (h₀ : t₀.CountOk) (h : (tableThreads R t₀.size).Linearizable t₀ s)
    {key : List Byte} {x : CacheValue R} (hx : hashTableGet t₀ key = some x)
    (htype : x.type = cacheValueDecimal)
    (hincs : ∀ op ∈ opsOn t₀.size key s.done, op.cmd.IncsByOne R)
    (hup : CountsUp R x.value.asDecimal.toInt
      (x.value.asDecimal.toInt + (opsOn t₀.size key s.done).length)) :
    ((opsOn t₀.size key s.done).map Op.reply).Nodup := by
  obtain ⟨order, hperm, v, hreplays⟩ := linearizable_onSlot h₀ h key
  rw [hx] at hreplays
  have hincs' : ∀ op ∈ order, op.cmd.IncsByOne R := fun op hop => hincs op (hperm.mem_iff.mp hop)
  obtain ⟨hnodup, -⟩ := incs_answer_above hreplays hincs' htype hup (by rw [hperm.length_eq])
  exact (hperm.map Op.reply).nodup_iff.mp hnodup

end Concurrent

end Memuncached.Server
