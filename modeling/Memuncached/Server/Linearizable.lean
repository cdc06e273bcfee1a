import Memuncached.Lib.Interleave
import Memuncached.Server.Reply

/-!
# Commands of concurrent clients

Every client has a thread, and the threads share the table without a lock: the
`hash_table_*` calls of their commands interleave. A call, with the formatting
of the value it returned, is one atomic step here; nothing holds the commands
together.

* `commands_linearizable`: the commands are linearizable as long as no call on
  a slot comes between the calls of another command on it, except one that
  leaves the slot as it is while the other has not changed it or has changed it
  for good.
* `addsInterleaved_not_linearizable`: two ADDs of one absent key both succeed.
-/

namespace Memuncached.Server

open Interleave

/-- A command that works on the table, with its arguments; SET and ADD with the
    payload they have received, which differ in `overwrite`. -/
inductive TableCommand where
  | dec (key : List Byte) (offset initial : Option (List Byte))
  | inc (key : List Byte) (offset initial : Option (List Byte))
  | del (key : List Byte)
  | get (key : List Byte)
  | set (key type : List Byte) (vLength : ℤ) (payload : Option (List Byte)) (overwrite : Bool)
  deriving DecidableEq

namespace TableCommand

/-- The key of a command. -/
def key : TableCommand → List Byte
  | dec key _ _ => key
  | inc key _ _ => key
  | del key => key
  | get key => key
  | set key _ _ _ _ => key

variable {R : Type} [CacheValueReal R]

/-- The calls of a command on the table, and the replies it writes. -/
def prog : TableCommand → TableProg R (Option (List (List Byte)))
  | dec key offset initial => memuncachedDec key offset initial
  | inc key offset initial => memuncachedInc key offset initial
  | del key => memuncachedDel key
  | get key => memuncachedGet key
  | set key type vLength payload overwrite => setTable key type vLength payload overwrite

theorem prog_onKey (cmd : TableCommand) : OnKey cmd.key (cmd.prog : TableProg R _) := by
  cases cmd with
  | dec key offset initial => exact memuncachedDec_onKey key offset initial
  | inc key offset initial => exact memuncachedInc_onKey key offset initial
  | del key => exact memuncachedDel_onKey key
  | get key => exact memuncachedGet_onKey key
  | set key type vLength payload overwrite => exact setTable_onKey key type vLength payload overwrite

end TableCommand

section Linearizable

variable {R : Type} [CacheValueReal R]

/-- The commands on a table of `size` slots: a command works on slot
    `fnv1a(key) % size`. -/
def tableThreads (R : Type) [CacheValueReal R] (size : ℕ) :
    Threads (TableCall.Result (R := R)) (Option (List (List Byte))) (HashTable R) ℕ
      (Option (CacheValue R)) TableCommand where
  exec := TableCall.exec
  execAt := TableCall.execAt
  view t i := t.slot i
  prog := TableCommand.prog
  place cmd := (fnv1a cmd.key).toNat % size

theorem tableThreads_local (size : ℕ) :
    (tableThreads R size).Local (fun t => t.size = size ∧ t.CountOk)
      fun c => (fnv1a c.key).toNat % size where
  locality := TableCall.tableLocality R size
  calls cmd := by
    refine CallTree.Calls.imp (fun c hc => ?_) (cmd.prog_onKey (R := R))
    show (fnv1a c.key).toNat % size = (fnv1a cmd.key).toNat % size
    rw [hc]

/-! ## The condition -/

/-- The commands of any number of clients, called in any order, are linearizable
    when no call disturbs a command of another client on the same slot. -/
theorem commands_linearizable {ι : Type} [DecidableEq ι] {t₀ : HashTable R} (h₀ : t₀.CountOk)
    {as : List (Action ι TableCommand)}
    {s : State (TableCall.Result (R := R)) (Option (List (List Byte))) (HashTable R)
      (Option (CacheValue R)) TableCommand ι}
    (hok : Transitions.Along (tableThreads R t₀.size).step (tableThreads R t₀.size).Undisturbed
      (State.initial t₀) as)
    (hrun : Transitions.run (tableThreads R t₀.size).step (State.initial t₀) as = some s)
    (hend : s.Complete) : (tableThreads R t₀.size).Linearizable t₀ s :=
  Threads.linearizable_of_along (tableThreads_local t₀.size) ⟨rfl, h₀⟩ hok hrun hend

end Linearizable

/-- `INC a` of one client, which another asks for `a` during it, before and after
    the value is set. -/
def incRead : List (Action Bool TableCommand) :=
  [.start false (.inc (ascii "a") none none), .start true (.get (ascii "a")), .next false,
    .start true (.get (ascii "a")), .next false]

theorem incRead_undisturbed :
    Transitions.Along (tableThreads ℚ 1).step (tableThreads ℚ 1).Undisturbed
      (State.initial (hashTableCreate ℚ 1 Nat.one_pos)) incRead := by
  refine ⟨?_, ?_, ?_, ?_, ?_, trivial⟩
  · intro p hp j q hj hq hplace
    cases hq
  · intro p hp j q hj hq hplace
    cases j with
    | true => exact absurd rfl hj
    | false =>
      cases hp
      cases hq
      refine ⟨by decide, Or.inl (by decide)⟩
  · intro p hp j q hj hq hplace
    cases j with
    | true => cases hq
    | false => exact absurd rfl hj
  · intro p hp j q hj hq hplace
    cases j with
    | true => exact absurd rfl hj
    | false =>
      cases hp
      cases hq
      refine ⟨by decide, Or.inr ⟨by decide, trivial⟩⟩
  · intro p hp j q hj hq hplace
    cases j with
    | true => cases hq
    | false => exact absurd rfl hj

/-- One GET finds nothing and the other the value that INC answers with. -/
theorem commands_linearizable_incRead :
    ∃ s, Transitions.run (tableThreads ℚ 1).step
        (State.initial (hashTableCreate ℚ 1 Nat.one_pos)) incRead = some s ∧
      s.done.map Op.reply = [some [numberReply cacheValueDecimal [49]],
        some [numberReply cacheValueDecimal [49]], some [replyNotFound]] ∧
      (tableThreads ℚ 1).Linearizable (hashTableCreate ℚ 1 Nat.one_pos) s :=
  ⟨_, rfl, by decide, commands_linearizable (countOk_hashTableCreate 1 Nat.one_pos)
    incRead_undisturbed rfl fun i => by cases i <;> rfl⟩

/-! ## Two ADDs -/

/-- `ADD a 0 1` with the payload 7. -/
def addSeven : TableCommand := .set (ascii "a") (ascii "0") 1 (some [55, 0, 0]) false

/-- Two clients send it at once: both look the key up before either sets it. -/
def addsInterleaved : List (Action Bool TableCommand) :=
  [.start false addSeven, .start true addSeven, .next false, .next false, .next true, .next true]

/-- One after the other they do not both succeed. -/
theorem addSeven_not_replays {order : List (Op Bool TableCommand (Option (List (List Byte))))}
    (hlength : order.length = 2)
    (hadds : ∀ op ∈ order, op.cmd = addSeven ∧ op.reply = some [replySuccess []])
    (t : HashTable ℚ) :
    ¬ (tableThreads ℚ 1).Replays (hashTableCreate ℚ 1 Nat.one_pos) order t := by
  obtain ⟨first, second, rfl⟩ := List.length_eq_two.mp hlength
  obtain ⟨hcmd, -⟩ := hadds first List.mem_cons_self
  obtain ⟨hcmd', hreply'⟩ := hadds second (List.mem_cons_of_mem _ List.mem_cons_self)
  rintro ⟨-, hsecond, -⟩
  rw [hcmd, hcmd', hreply'] at hsecond
  revert hsecond
  decide

theorem addsInterleaved_not_linearizable :
    ∃ s, Transitions.run (tableThreads ℚ 1).step
        (State.initial (hashTableCreate ℚ 1 Nat.one_pos)) addsInterleaved = some s ∧
      s.Complete ∧
      s.done.map Op.reply = [some [replySuccess []], some [replySuccess []]] ∧
      ¬ (tableThreads ℚ 1).Linearizable (hashTableCreate ℚ 1 Nat.one_pos) s := by
  refine ⟨_, rfl, fun i => ?_, by decide, ?_⟩
  · cases i <;> rfl
  · rintro ⟨order, hperm, -, hreplays⟩
    refine addSeven_not_replays hperm.length_eq (fun op hop => ?_) _ hreplays
    rcases List.mem_cons.mp (hperm.mem_iff.mp hop) with rfl | hop
    · exact ⟨rfl, by decide⟩
    · obtain rfl := List.mem_singleton.mp hop
      exact ⟨rfl, by decide⟩

end Memuncached.Server
