import Memuncached.Server.Answer
import Memuncached.Server.Payload

/-!
# The table over runs of commands

Commands executed one at a time, with any arguments, on a table made by
`hash_table_create`.

* `commandStep_acts`: what a command does to the table is a program of valid
  calls (`TableCall.Valid`) about its key.
* `commandReachable_invariant`: in every state reached that way the count is the
  number of occupied slots and every value is of the kind its type says.
-/

namespace Memuncached.Server

section TableRun

variable {R : Type} [CacheValueReal R]

/-! ## Commands -/

/-- The key a call is about. -/
def Call.key? : Call → Option (List Byte)
  | .dec key _ _ => some key
  | .inc key _ _ => some key
  | .del key => some key
  | .get key => some key
  | .set key _ _ _ _ => some key
  | _ => none

/-- The call, carried out to its end, leaves the table `t'`. -/
def CommandStep (t : HashTable R) (call : Call) (t' : HashTable R) : Prop :=
  ∃ env clientCount mem k socket n events running,
    (runCommand t n (runCall env t clientCount mem k call, socket)).1 = .done events t' running

/-- The tables that commands lead to from an empty one of `size` slots. -/
inductive CommandReachable (R : Type) [CacheValueReal R] (size : ℕ) : HashTable R → Prop
  | create (hsize : 0 < size) : CommandReachable R size (hashTableCreate R size hsize)
  | step {t t' : HashTable R} (call : Call) (ht : CommandReachable R size t)
      (hstep : CommandStep t call t') : CommandReachable R size t'

/-- The count is the number of occupied slots and every value is of the kind its
    type says. -/
structure TableInvariant (t : HashTable R) : Prop where
  count_eq : t.count = t.occupied
  count_le : t.count ≤ t.size
  wellFormed : ∀ i, ∀ v ∈ t.slot i, v.WellFormed

/-! ## The calls of a command -/

/-- Every call of the program is valid. -/
def ValidCalls {α : Type} (p : TableProg R α) : Prop := CallTree.Calls TableCall.Valid p

omit [CacheValueReal R] in
theorem validCalls_single {c : TableCall R} (h : c.Valid) :
    ValidCalls (CallTree.single c : TableProg R c.Result) := CallTree.Calls.single h

theorem memuncachedGet_valid (key : List Byte) :
    ValidCalls (memuncachedGet key : TableProg R _) := by
  refine CallTree.Calls.bind (validCalls_single trivial) fun v => ?_
  cases v <;> trivial

theorem memuncachedDel_valid (key : List Byte) :
    ValidCalls (memuncachedDel key : TableProg R _) := by
  refine CallTree.Calls.bind (memuncachedGet_valid key) fun writes => ?_
  cases writes with
  | none => trivial
  | some writes => exact CallTree.Calls.bind (validCalls_single trivial) fun _ => trivial

theorem memuncachedUpdate_valid {update : List Byte → R → TableProg R (Option (CacheValue R))}
    (hupdate : ∀ key offset, ValidCalls (update key offset)) (key : List Byte)
    (offset initial : Option (List Byte)) :
    ValidCalls (memuncachedUpdate update key offset initial) := by
  refine CallTree.Calls.bind (hupdate key _) fun v => ?_
  cases v with
  | some v => exact memuncachedGet_valid key
  | none =>
    dsimp only
    split_ifs
    · exact CallTree.Calls.bind (validCalls_single (Or.inl ⟨rfl, rfl⟩)) fun _ =>
        memuncachedGet_valid key
    · exact CallTree.Calls.bind (validCalls_single (Or.inr (Or.inl ⟨rfl, rfl⟩))) fun _ =>
        memuncachedGet_valid key

theorem memuncachedDec_valid (key : List Byte) (offset initial : Option (List Byte)) :
    ValidCalls (memuncachedDec key offset initial : TableProg R _) :=
  @memuncachedUpdate_valid R _ TableProg.dec (fun key offset =>
    @validCalls_single R (.dec key offset) trivial) key offset initial

theorem memuncachedInc_valid (key : List Byte) (offset initial : Option (List Byte)) :
    ValidCalls (memuncachedInc key offset initial : TableProg R _) :=
  @memuncachedUpdate_valid R _ TableProg.inc (fun key offset =>
    @validCalls_single R (.inc key offset) trivial) key offset initial

/-- A string is set from a buffer that is longer than the string. -/
theorem setValue_valid (key type : List Byte) {vLength : ℤ} (hv : vLength + 2 ≤ intMax)
    (payload : Option (List Byte)) :
    ValidCalls (setValue key type vLength payload : TableProg R _) := by
  refine CallTree.Calls.bind (validCalls_single trivial) fun _ => ?_
  cases hput : putTerminators payload vLength with
  | none => trivial
  | some buffer =>
    dsimp only
    split_ifs with h0 h1 h2
    · exact CallTree.Calls.bind (validCalls_single (Or.inl ⟨h0, rfl⟩)) fun _ => trivial
    · exact CallTree.Calls.bind (validCalls_single (Or.inr (Or.inl ⟨h1, rfl⟩))) fun _ => trivial
    · refine CallTree.Calls.bind (validCalls_single (Or.inr (Or.inr ⟨h2, ?_, ?_⟩))) fun _ => trivial
      · obtain ⟨old, -, hroom⟩ := Option.bind_eq_some_iff.mp hput
        split_ifs at hroom with hfit
        injection hroom with hroom
        show vLength.toNat ≤ buffer.length
        rw [← hroom, length_store]
        omega
      · have hmax : 2 ≤ intMax := by decide
        omega
    · trivial

theorem setTable_valid (key type : List Byte) {vLength : ℤ} (hv : vLength + 2 ≤ intMax)
    (payload : Option (List Byte)) (overwrite : Bool) :
    ValidCalls (setTable key type vLength payload overwrite : TableProg R _) := by
  unfold setTable
  split_ifs
  · exact setValue_valid key type hv payload
  · refine CallTree.Calls.bind (validCalls_single trivial) fun v => ?_
    cases v with
    | none => exact setValue_valid key type hv payload
    | some v => trivial

/-- A program of valid calls stays among the reachable tables. -/
theorem Reachable.run {α : Type} {p : TableProg R α} (hp : ValidCalls p) {t : HashTable R}
    (ht : Reachable t) : Reachable (TableProg.exec p t).2 := by
  induction p generalizing t with
  | ret a => exact ht
  | call c k ih => exact ih (c.exec t).1 (hp.2 _) (Reachable.call c ht hp.1)

/-! ## One command -/

/-- What one command about the key can do to the table: valid calls about its
    key. -/
def Acts (key? : Option (List Byte)) (t t' : HashTable R) : Prop :=
  (Reachable t → Reachable t') ∧ t'.size = t.size ∧
    ∀ i, (∀ key ∈ key?, i ≠ t.index key) → t'.slot i = t.slot i

theorem acts_refl (key? : Option (List Byte)) (t : HashTable R) : Acts key? t t :=
  ⟨id, rfl, fun _ _ => rfl⟩

theorem acts_exec {α : Type} {key : List Byte} {p : TableProg R α} (hvalid : ValidCalls p)
    (hkey : OnKey key p) (t : HashTable R) : Acts (some key) t (TableProg.exec p t).2 := by
  obtain ⟨hsize, hslot⟩ := TableProg.run_frame hkey t
  exact ⟨fun ht => Reachable.run hvalid ht, hsize, fun i hi => hslot i (hi key rfl)⟩

/-- A state of a command that acts on the table as it should. -/
def CommandState.ActsOn (key? : Option (List Byte)) (t : HashTable R) : CommandState R → Prop
  | .done _ t' _ => Acts key? t t'
  | .recv p => key? = some p.key ∧ p.vLength + 2 ≤ intMax
  | .fault => True

theorem ofTable_actsOn {key : List Byte} {p : TableProg R (Option (List (List Byte)))}
    (hvalid : ValidCalls p) (hkey : OnKey key p) (t : HashTable R) :
    (CommandState.ofTable p t).ActsOn (some key) t := by
  have hacts := acts_exec hvalid hkey t
  rw [ofTable_eq]
  split
  · trivial
  · exact hacts

theorem payloadLoop_actsOn (t : HashTable R) (p : PayloadRead) (hv : p.vLength + 2 ≤ intMax) :
    (payloadLoop t p).ActsOn (some p.key) t := by
  unfold payloadLoop
  split_ifs
  · exact ⟨rfl, hv⟩
  · have hacts := acts_exec (setTable_valid p.key p.type hv p.payload p.overwrite)
      (setTable_onKey p.key p.type p.vLength p.payload p.overwrite) t
    rw [memuncachedSetEnd_eq]
    split
    · trivial
    · exact hacts

theorem payloadRecv_actsOn {key? : Option (List Byte)} (t : HashTable R) (p : PayloadRead)
    (result : RecvResult) (h : key? = some p.key ∧ p.vLength + 2 ≤ intMax) :
    (payloadRecv t p result).ActsOn key? t := by
  obtain ⟨rfl, hv⟩ := h
  cases result with
  | data bytes => exact payloadLoop_actsOn t _ hv
  | eof => exact payloadLoop_actsOn t p hv
  | error => exact acts_refl _ t
  | block => exact ⟨rfl, hv⟩

theorem runCall_actsOn (env : Env) (t : HashTable R) (clientCount : ℕ) (mem : List Byte) (k : ℕ)
    (call : Call) : (runCall env t clientCount mem k call).ActsOn call.key? t := by
  cases call with
  | nothing => exact acts_refl _ t
  | badRequest message => exact acts_refl _ t
  | bye => exact acts_refl _ t
  | stt => exact acts_refl _ t
  | ver => exact acts_refl _ t
  | dec key offset initial =>
    exact ofTable_actsOn (memuncachedDec_valid key offset initial)
      (memuncachedDec_onKey key offset initial) t
  | inc key offset initial =>
    exact ofTable_actsOn (memuncachedInc_valid key offset initial)
      (memuncachedInc_onKey key offset initial) t
  | del key => exact ofTable_actsOn (memuncachedDel_valid key) (memuncachedDel_onKey key) t
  | get key => exact ofTable_actsOn (memuncachedGet_valid key) (memuncachedGet_onKey key) t
  | set key type length itr overwrite =>
    show (memuncachedSet env t key type length _ overwrite).ActsOn (some key) t
    unfold memuncachedSet
    dsimp only
    by_cases hv : atoi length + 2 > intMax
    · rw [if_pos hv]
      trivial
    · rw [if_neg hv]
      cases copyChunk (calloc env (atoi length + 2)) (readMem env mem itr k) with
      | none => trivial
      | some payload => exact payloadLoop_actsOn t _ (not_lt.mp hv)

/-- What a command does to the table is valid calls about its key. -/
theorem commandStep_acts {t t' : HashTable R} {call : Call} (h : CommandStep t call t') :
    Acts call.key? t t' := by
  obtain ⟨env, clientCount, mem, k, socket, n, events, running, hdone⟩ := h
  have hrun := runCommand_invariant (P := fun state => state.ActsOn call.key? t)
    (fun p result => payloadRecv_actsOn t p result)
    (s := (runCall env t clientCount mem k call, socket))
    (runCall_actsOn env t clientCount mem k call) n
  rw [hdone] at hrun
  exact hrun

/-! ## Runs of commands -/

theorem CommandReachable.reachable {size : ℕ} {t : HashTable R} (h : CommandReachable R size t) :
    Reachable t ∧ t.size = size := by
  induction h with
  | create hsize => exact ⟨Reachable.create size hsize, rfl⟩
  | step call _ hstep ih =>
    obtain ⟨hreach, hsize, -⟩ := commandStep_acts hstep
    exact ⟨hreach ih.1, hsize.trans ih.2⟩

omit [CacheValueReal R] in
theorem occupied_le_size (t : HashTable R) : t.occupied ≤ t.size := by
  rw [← t.length_table]
  exact List.countP_le_length

/-- In every state that commands lead to the table is as it should be, GET meets
    one of the three types, and the next command changes no slot but its
    key's. -/
theorem commandReachable_invariant {size : ℕ} {t : HashTable R}
    (h : CommandReachable R size t) :
    TableInvariant t ∧
      (∀ key v, hashTableGet t key = some v →
        v.type = cacheValueDecimal ∨ v.type = cacheValueReal ∨ v.type = cacheValueString) ∧
      ∀ call t', CommandStep t call t' →
        ∀ i, (∀ key ∈ call.key?, i ≠ (fnv1a key).toNat % size) → t'.slot i = t.slot i := by
  obtain ⟨hreach, hsize⟩ := h.reachable
  have hcount := hreach.countOk
  refine ⟨⟨hcount, ?_, hreach.wellFormed⟩, fun key v hv => ?_, fun call t' hstep i hi => ?_⟩
  · rw [hcount]
    exact occupied_le_size t
  · rcases hreach.wellFormed _ v hv with ⟨ht, -⟩ | ⟨ht, -⟩ | ⟨ht, -⟩
    · exact Or.inl ht
    · exact Or.inr (Or.inl ht)
    · exact Or.inr (Or.inr ht)
  · apply (commandStep_acts hstep).2.2
    intro key hkey
    show i ≠ (fnv1a key).toNat % t.size
    rw [hsize]
    exact hi key hkey

end TableRun

/-- After one INC in a table of one slot. -/
theorem commandReachable_invariant_inc :
    TableInvariant
      (TableProg.exec (memuncachedInc (ascii "a") none none) (hashTableCreate ℚ 1 Nat.one_pos)).2 := by
  refine (commandReachable_invariant (.step (.inc (ascii "a") none none)
    (.create Nat.one_pos) ?_)).1
  exact ⟨Env.zero, 1, [], 0, { segments := [], ending := .idle }, 0, _, true, rfl⟩

end Memuncached.Server
