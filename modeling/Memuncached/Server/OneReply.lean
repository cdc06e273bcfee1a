import Memuncached.Server.TableRun
import Memuncached.Server.Length

/-!
# One request, one reply

`handle_command` on any command, carried to its end: what it writes is one
response of the documented form.

* `handleCommandCall_total`: a command with a NUL in it always comes to a call.
* `runCall_answers_iff`: a call without payload is answered once unless it is a
  GET or DEL of a string that is too long for `buffer_len` (`ReplyFits`).
* `handleCommand_oneReply_iff`: so is every request whose payload arrives.
-/

namespace Memuncached.Server

open Segments

/-! ## Responses -/

/-- A code of three digits and a description on one line. -/
structure Response.WellFormed (r : Response) : Prop where
  code_length : r.code.length = 3
  code_digits : ∀ b ∈ r.code, isDigit b = true
  description : (10 : Byte) ∉ r.description

section OneReply

variable {R : Type} [CacheValueReal R]

/-- A command that has come to its end has written one response, with a type if
    and only if it carries a value that is or was in the table. -/
def CommandState.Answers (table : HashTable R) : CommandState R → Prop
  | .done events table' _ =>
    ∃ r : Response, repliesOf events = [r.encode] ∧ r.WellFormed ∧
      (r.type.isSome = true ↔ ∃ key v,
        (hashTableGet table key = some v ∨ hashTableGet table' key = some v) ∧
          r = valueResponse v)
  | .recv _ | .fault => False

/-- The command comes to its end and has written one response. -/
def OneReply (table : HashTable R) (s : CommandState R × Socket) : Prop :=
  ∃ n, (runCommand table n s).1.Answers table

/-- A call that gets or deletes a value gets one it can reply. -/
def Call.Fits (table : HashTable R) (call : Call) : Prop :=
  ∀ key v, call = .get key ∨ call = .del key → hashTableGet table key = some v → ReplyFits v

/-- The reply carries no value. -/
def PlainReply (reply : List Byte) : Prop :=
  ∃ r : Response, reply = r.encode ∧ r.WellFormed ∧ r.type = none

theorem plainReply_responseWrite {code description : List Byte} (hlength : code.length = 3)
    (hdigits : ∀ b ∈ code, isDigit b = true) (hdescription : (10 : Byte) ∉ description)
    (data : List Byte) : PlainReply (responseWrite (code ++ 32 :: description) data) :=
  ⟨_, responseWrite_eq_encode code description data, ⟨hlength, hdigits, hdescription⟩, rfl⟩

theorem plainReply_success (data : List Byte) : PlainReply (replySuccess data) :=
  @plainReply_responseWrite (ascii "200") (ascii "OK") rfl (List.all_eq_true.mp (by decide))
    (by decide) data

theorem plainReply_badRequest (message : List Byte) : PlainReply (replyBadRequest message) :=
  @plainReply_responseWrite (ascii "400") (ascii "BAD REQUEST") rfl
    (List.all_eq_true.mp (by decide)) (by decide) message

theorem plainReply_notFound : PlainReply replyNotFound :=
  @plainReply_responseWrite (ascii "404") (ascii "NOT FOUND") rfl
    (List.all_eq_true.mp (by decide)) (by decide) []

theorem plainReply_keyExists : PlainReply replyKeyExists :=
  @plainReply_responseWrite (ascii "409") (ascii "KEY EXISTS") rfl
    (List.all_eq_true.mp (by decide)) (by decide) []

theorem valueResponse_wellFormed (v : CacheValue R) : (valueResponse v).WellFormed :=
  ⟨rfl, List.all_eq_true.mp (by decide : (ascii "200").all isDigit = true),
    (by decide : (10 : Byte) ∉ ascii "OK")⟩

theorem answers_plain {table table' : HashTable R} {events : List Event} {running : Bool}
    {reply : List Byte} (hevents : repliesOf events = [reply]) (hreply : PlainReply reply) :
    (CommandState.done events table' running).Answers table := by
  obtain ⟨r, rfl, hr, htype⟩ := hreply
  refine ⟨r, hevents, hr, iff_of_false (by simp [htype]) ?_⟩
  rintro ⟨key, v, -, rfl⟩
  cases htype

theorem answers_value {table table' : HashTable R} {events : List Event} {running : Bool}
    {key : List Byte} {v : CacheValue R} (hevents : repliesOf events = [(valueResponse v).encode])
    (hv : hashTableGet table key = some v ∨ hashTableGet table' key = some v) :
    (CommandState.done events table' running).Answers table :=
  ⟨valueResponse v, hevents, valueResponse_wellFormed v, iff_of_true rfl ⟨key, v, hv, rfl⟩⟩

/-! ## Calls -/

/-- What a command on the table that answers with the value under a key writes. -/
theorem ofTable_answers {p : TableProg R (Option (List (List Byte)))} {table : HashTable R}
    {key : List Byte} {v : Option (CacheValue R)} (hp : (TableProg.exec p table).1 = answer v)
    (hv : ∀ x ∈ v, x.WellFormed ∧
      (hashTableGet table key = some x ∨ hashTableGet (TableProg.exec p table).2 key = some x)) :
    (CommandState.ofTable p table).Answers table ↔ ∀ x ∈ v, ReplyFits x := by
  rw [ofTable_eq, hp]
  cases v with
  | none => exact iff_of_true (answers_plain rfl plainReply_notFound) (by simp)
  | some x =>
    obtain ⟨hwf, hget⟩ := hv x rfl
    by_cases hfit : ReplyFits x
    · have hreply : answer (some x) = some [(valueResponse x).encode] := by
        rw [answer, getReply_wellFormed hwf hfit]
        rfl
      rw [hreply]
      refine iff_of_true (answers_value rfl hget) ?_
      rintro y ⟨⟩
      exact hfit
    · rw [answer_eq_none.mpr ⟨x, rfl, hfit⟩]
      exact iff_of_false id fun h => hfit (h x rfl)

omit [CacheValueReal R] in
theorem fits_iff {table : HashTable R} {key : List Byte} {call : Call}
    (hcall : ∀ key', call = .get key' ∨ call = .del key' ↔ key = key') :
    (∀ x ∈ hashTableGet table key, ReplyFits x) ↔ call.Fits table := by
  constructor
  · intro h key' v hkey hv
    rw [hcall] at hkey
    subst hkey
    exact h v hv
  · intro h v hv
    exact h key v ((hcall key).mpr rfl) hv

theorem runCall_answers_iff (env : Env) {table : HashTable R} (htable : Reachable table)
    (clientCount : ℕ) (mem : List Byte) (k : ℕ) {call : Call} (hcall : call ≠ .nothing)
    (hset : ∀ key type length itr overwrite, call ≠ .set key type length itr overwrite) :
    (runCall env table clientCount mem k call).Answers table ↔ call.Fits table := by
  -- INC and DEC answer with a number, which always fits
  have hcounter : ∀ {p : TableProg R (Option (List (List Byte)))} {key : List Byte},
      ValidCalls p → (∃ v : CacheValue R, v.type ≠ cacheValueString ∧
        hashTableGet (TableProg.exec p table).2 key = some v ∧
        (TableProg.exec p table).1 = answer (some v)) →
      (CommandState.ofTable p table).Answers table := by
    rintro p key hvalid ⟨v, hs, hget, hp⟩
    refine (@ofTable_answers R _ p table key (some v) hp ?_).mpr ?_
    · rintro x ⟨⟩
      exact ⟨(Reachable.run hvalid htable).wellFormed _ v hget, Or.inr hget⟩
    · rintro x ⟨⟩
      exact fun hx => absurd hx hs
  cases call with
  | nothing => exact absurd rfl hcall
  | set key type length itr overwrite => exact absurd rfl (hset key type length itr overwrite)
  | badRequest message =>
    exact iff_of_true (answers_plain rfl (plainReply_badRequest message)) (by simp [Call.Fits])
  | bye => exact iff_of_true (answers_plain rfl (plainReply_success _)) (by simp [Call.Fits])
  | stt => exact iff_of_true (answers_plain rfl (plainReply_success _)) (by simp [Call.Fits])
  | ver => exact iff_of_true (answers_plain rfl (plainReply_success _)) (by simp [Call.Fits])
  | dec key offset initial =>
    refine iff_of_true ?_ (by simp [Call.Fits])
    exact hcounter (memuncachedDec_valid key offset initial)
      (memuncachedDec_spec key offset initial table)
  | inc key offset initial =>
    refine iff_of_true ?_ (by simp [Call.Fits])
    exact hcounter (memuncachedInc_valid key offset initial)
      (memuncachedInc_spec key offset initial table)
  | get key =>
    refine (@ofTable_answers R _ (memuncachedGet key) table key (hashTableGet table key)
      (by rw [exec_memuncachedGet]) fun x hx => ⟨htable.wellFormed _ x hx, Or.inl hx⟩).trans ?_
    exact fits_iff fun key' => by simp
  | del key =>
    refine (@ofTable_answers R _ (memuncachedDel key) table key (hashTableGet table key)
      (by rw [exec_memuncachedDel]) fun x hx => ⟨htable.wellFormed _ x hx, Or.inl hx⟩).trans ?_
    exact fits_iff fun key' => by simp

/-- The end of SET and ADD with the payload in the buffer. -/
theorem memuncachedSetEnd_answers (table : HashTable R) {p : PayloadRead} {buffer : List Byte}
    (hput : putTerminators p.payload p.vLength = some buffer) (hwrites : p.writes = []) :
    (memuncachedSetEnd table p).Answers table := by
  obtain ⟨reply, hreply, hplain⟩ : ∃ reply,
      (TableProg.exec (setTable p.key p.type p.vLength p.payload p.overwrite) table).1 =
        some [reply] ∧ PlainReply reply := by
    rw [exec_setTable]
    split_ifs
    · cases hresult : setResult (R := R) p.key (p.type.headD 0 - 48) p.vLength buffer with
      | none => exact ⟨_, by rw [setValue_rejects hput hresult], plainReply_badRequest _⟩
      | some v => exact ⟨_, (setValue_stores hput hresult table).1, plainReply_success []⟩
    · exact ⟨_, rfl, plainReply_keyExists⟩
  rw [memuncachedSetEnd_eq, hreply, hwrites]
  refine answers_plain ?_ hplain
  rw [repliesOf_append, repliesOf_events, repliesOf_map_reply]
  rfl

/-- SET and ADD with a payload that arrives are answered once. -/
theorem memuncachedSet_oneReply {env : Env} (henv : env.AllocationsSucceed) (table : HashTable R)
    (key type : List Byte) {length found : List Byte} {n : ℕ} (hv : atoi length = n)
    (hn : (n : ℤ) + 2 ≤ intMax) (hk : found.length ≤ n + 2) (overwrite : Bool)
    {segs : List (List Byte)} {s : List Byte} (hcut : Cut segs s) (ending : StreamEnd)
    (hs : n + 2 ≤ found.length + s.length) :
    OneReply table (memuncachedSet env table key type length found overwrite,
      { segments := segs, ending := ending }) := by
  obtain ⟨m, buffer, hlen, hrun⟩ :=
    memuncachedSet_arrives henv table key type hv hn hk overwrite hcut ending hs
  refine ⟨m, ?_⟩
  rw [hrun]
  exact memuncachedSetEnd_answers table (putTerminators_some ⟨by dsimp only; omega,
    by dsimp only; omega⟩) rfl

/-! ## Commands -/

/-- What the checks of `handle_command` leave of a call: there is one, and
    LENGTH is a text of digits. -/
def Call.Checked : Call → Prop
  | .nothing => False
  | .set _ _ length _ _ => isPositiveDecimal length = true
  | _ => True

theorem keyCall_checked {call : List Byte → Call} (hcall : ∀ k, (call k).Checked)
    (k : Option (List Byte)) : (keyCall call k).Checked := by
  cases k with
  | none => trivial
  | some k => exact hcall k

theorem counterCall_checked {call : List Byte → Option (List Byte) → Option (List Byte) → Call}
    (hcall : ∀ k o i, (call k o i).Checked) (k offset initial : Option (List Byte)) :
    (counterCall call k offset initial).Checked := by
  unfold counterCall
  cases k with
  | none => trivial
  | some k =>
    dsimp only
    split_ifs
    · trivial
    · trivial
    · exact hcall k offset initial

theorem bareCall_checked {call : Call} (hcall : call.Checked) (atEnd : Bool) :
    (bareCall call atEnd).Checked := by
  unfold bareCall
  split_ifs
  · exact hcall
  · trivial

theorem storeCall_checked (key type length : Option (List Byte)) (itr : ℕ) (overwrite : Bool) :
    (storeCall key type length itr overwrite).Checked := by
  cases hcall : storeCall key type length itr overwrite with
  | set key type length itr overwrite => exact (storeCall_eq_set.mp hcall).2.2.2.2.1
  | nothing =>
    unfold storeCall at hcall
    split at hcall
    · cases hcall
    · split at hcall
      · cases hcall
      · split_ifs at hcall
        split at hcall
        · cases hcall
        · split_ifs at hcall
  | _ => trivial

/-- With a NUL before it the scan of a command word's arguments stays in the
    block and comes to a call. -/
theorem wordCall_total (pre : List Byte) {mem : List Byte} (h0 : (0 : Byte) ∈ mem)
    (word : CommandWord) :
    ∃ call mem', wordCall (cursorAt pre mem) word = some (call, mem') ∧ call.Checked := by
  obtain ⟨b, rest, hmem⟩ := List.exists_cons_of_ne_nil (List.ne_nil_of_mem h0)
  have hbyte : (cursorAt pre mem).mem[(cursorAt pre mem).itr]? = some b := by
    simp [cursorAt, hmem]
  obtain ⟨arg, seps, b', rest', harg⟩ : ∃ arg seps b rest, ArgAt mem arg seps b rest := by
    rcases exists_argAt mem with h | ⟨hno, -⟩
    · exact h
    · exact absurd h0 hno
  have hone := getNextArg_argAt pre harg
  rcases getThreeArgs_cases pre mem with ⟨hno, -⟩ | ⟨a₁, s₁, b₁, r₁, a₂, s₂, b₂, r₂, a₃, s₃, b₃, r₃,
    pre', -, -, -, hthree⟩
  · exact absurd h0 hno
  cases word with
  | add => exact ⟨_, _, by rw [wordCall, hthree]; rfl, storeCall_checked _ _ _ _ _⟩
  | set => exact ⟨_, _, by rw [wordCall, hthree]; rfl, storeCall_checked _ _ _ _ _⟩
  | bye => exact ⟨_, _, by rw [wordCall, hbyte]; rfl, @bareCall_checked .bye trivial _⟩
  | stt => exact ⟨_, _, by rw [wordCall, hbyte]; rfl, @bareCall_checked .stt trivial _⟩
  | ver => exact ⟨_, _, by rw [wordCall, hbyte]; rfl, @bareCall_checked .ver trivial _⟩
  | dec =>
    exact ⟨_, _, by rw [wordCall, hthree]; rfl,
      @counterCall_checked .dec (fun _ _ _ => trivial) _ _ _⟩
  | inc =>
    exact ⟨_, _, by rw [wordCall, hthree]; rfl,
      @counterCall_checked .inc (fun _ _ _ => trivial) _ _ _⟩
  | del => exact ⟨_, _, by rw [wordCall, hone]; rfl, @keyCall_checked .del (fun _ => trivial) _⟩
  | get => exact ⟨_, _, by rw [wordCall, hone]; rfl, @keyCall_checked .get (fun _ => trivial) _⟩

theorem handleCommandCall_total {command : List Byte} (h0 : (0 : Byte) ∈ command)
    (hfirst : command.head? ≠ some 0) :
    ∃ call mem, handleCommandCall command = some (call, mem) ∧ call.Checked := by
  rcases exists_argAt command with ⟨cmd, seps, b, rest, hcmd⟩ | ⟨hno, -⟩
  · rw [handleCommandCall_argAt hcmd]
    cases hscan : scannedArg cmd seps with
    | none =>
      unfold scannedArg at hscan
      split_ifs at hscan with hnil
      obtain ⟨rfl, rfl⟩ := hnil
      exact absurd (by rw [hcmd.mem_eq, hcmd.nul rfl]; rfl) hfirst
    | some cmd' =>
      dsimp only
      cases commandWord cmd' with
      | none => exact ⟨_, _, rfl, trivial⟩
      | some word => exact wordCall_total _ (hcmd.zero_mem h0) word
  · exact absurd h0 hno

/-- A request whose payload, if it has one, arrives gets one well-formed reply,
    unless it gets or deletes a string whose reply does not fit, only. -/
theorem handleCommand_oneReply_iff {env : Env} (henv : env.AllocationsSucceed)
    {table : HashTable R} (htable : Reachable table) (clientCount : ℕ) {command : List Byte}
    (h0 : (0 : Byte) ∈ command) (hfirst : command.head? ≠ some 0) (k : ℕ)
    {segs : List (List Byte)} {s : List Byte} (hcut : Cut segs s) (ending : StreamEnd)
    (hpayload : ∀ key type length itr overwrite mem,
      handleCommandCall command = some (.set key type length itr overwrite, mem) →
        (decimalValue length : ℤ) + 2 ≤ intMax ∧ k ≤ decimalValue length + 2 ∧
          decimalValue length + 2 ≤ k + s.length) :
    OneReply table (handleCommand env table clientCount command k,
        { segments := segs, ending := ending }) ↔
      ∀ call mem, handleCommandCall command = some (call, mem) → call.Fits table := by
  obtain ⟨call, mem, hcall, hchecked⟩ := handleCommandCall_total h0 hfirst
  have hcond : (∀ call' mem', handleCommandCall command = some (call', mem') →
      call'.Fits table) ↔ call.Fits table := by
    rw [hcall]
    simp
  have hrun : handleCommand env table clientCount command k =
      runCall env table clientCount mem k call := by
    rw [handleCommand, hcall]
  rw [hcond, hrun]
  by_cases hset : ∃ key type length itr overwrite, call = .set key type length itr overwrite
  · obtain ⟨key, type, length, itr, overwrite, rfl⟩ := hset
    obtain ⟨hmax, hk, hs⟩ := hpayload key type length itr overwrite mem hcall
    refine iff_of_true ?_ (by simp [Call.Fits])
    have hv := atoi_eq_decimalValue hchecked hmax
    apply memuncachedSet_oneReply henv table key type hv hmax ?_ overwrite hcut ending
    · rw [length_readMem]
      exact hs
    · rw [length_readMem]
      exact hk
  · simp only [not_exists] at hset
    have hne : call ≠ .nothing := by
      rintro rfl
      exact hchecked
    rw [← runCall_answers_iff env htable clientCount mem k hne hset]
    constructor
    · rintro ⟨n, hn⟩
      rwa [runCommand_stopped table (runCall_ne_recv env table clientCount mem k hset)] at hn
    · exact fun h => ⟨0, h⟩

end OneReply

theorem handleCommand_oneReply_ver :
    OneReply (hashTableCreate ℚ 1 Nat.one_pos)
      (handleCommand Env.zero (hashTableCreate ℚ 1 Nat.one_pos) 1 (ascii "VER" ++ [0]) 0,
        { segments := [], ending := .idle }) := by
  have hcall : handleCommandCall (ascii "VER" ++ [0]) = some (.ver, ascii "VER" ++ [0]) := by decide
  refine (handleCommand_oneReply_iff Env.zero_allocationsSucceed (Reachable.create 1 Nat.one_pos) 1
    (by decide) (by decide) 0 Cut.nil .idle ?_).mpr ?_
  · intro key type length itr overwrite mem h
    rw [hcall] at h
    cases h
  · intro call mem h
    rw [hcall] at h
    cases h
    simp [Call.Fits]

/-- A table with a string of `n` bytes under the key `a`. -/
def tableWithZeros (n : ℕ) : HashTable ℚ :=
  (hashTableSet (hashTableCreate ℚ 1 Nat.one_pos) (ascii "a") cacheValueString
    (.string (List.replicate n 0)) n).2

theorem tableWithZeros_reachable {n : ℕ} (hn : (n : ℤ) + 2 ≤ intMax) :
    Reachable (tableWithZeros n) := by
  refine .call (.set (ascii "a") cacheValueString (.string (List.replicate n 0)) n)
    (.create 1 Nat.one_pos) (Or.inr (Or.inr ⟨rfl, ?_, hn⟩))
  show n ≤ (List.replicate n (0 : Byte)).length
  rw [List.length_replicate]

theorem get_tableWithZeros {n : ℕ} (hn : intMax < (n : ℤ) + 3) (env : Env) (clientCount k : ℕ) :
    handleCommand env (tableWithZeros n) clientCount (ascii "GET a" ++ [0]) k = .fault := by
  have hcall : handleCommandCall (ascii "GET a" ++ [0]) =
      some (.get (ascii "a"), ascii "GET" ++ 0 :: ascii "a" ++ [0]) := by decide
  have hget := hashTableGet_set (hashTableCreate ℚ 1 Nat.one_pos) (ascii "a") cacheValueString
    (.string (List.replicate n 0)) n
  have hlong : ∀ v : CacheValue ℚ, v.type = cacheValueString → v.length = n → ¬ ReplyFits v := by
    intro v htype hlength hfits
    have hle := hfits htype
    unfold stringReplyLen at hle
    rw [hlength] at hle
    push_cast at hle
    omega
  rw [handleCommand, hcall]
  show CommandState.ofTable (memuncachedGet (ascii "a")) (tableWithZeros n) = _
  rw [ofTable_eq, exec_memuncachedGet, tableWithZeros, hget,
    answer_eq_none.mpr ⟨_, rfl, hlong _ rfl rfl⟩]

/-- The length of the reply to a GET of a string of `INT_MAX - 2` bytes, the
    most that SET takes, overflows. -/
theorem handleCommand_get_longString :
    Reachable (tableWithZeros 2147483645) ∧
      ¬ OneReply (tableWithZeros 2147483645)
        (handleCommand Env.zero (tableWithZeros 2147483645) 1 (ascii "GET a" ++ [0]) 0,
          { segments := [], ending := .idle }) := by
  refine ⟨tableWithZeros_reachable (by unfold intMax; omega), ?_⟩
  rw [get_tableWithZeros (by unfold intMax; omega)]
  rintro ⟨n, hn⟩
  rwa [runCommand_stopped _ (by simp)] at hn

end Memuncached.Server
