import Memuncached.Server.OneReply

/-!
# TYPE

TYPE is checked as a text of digits and used as one: `memuncached_set` takes the
first character of it, less `'0'`, for the type.

* `typeHonoured_iff`: this is the type that the number denotes, or none, exactly
  when the text starts with the digit it denotes, or denotes no type and does not
  start with the digit of one.
-/

namespace Memuncached.Server

open Segments

/-- The type a text of digits denotes: its number, if that is 0, 1 or 2. A sign
    alone denotes none. -/
def denotedType (type : List Byte) : Option UInt8 :=
  if (splitSign type).2 = [] then none
  else if decimalValue type ≤ 2 then some (decimalValue type).toUInt8
  else none

/-- The first character of TYPE is the digit of the type that it denotes, or it
    denotes none and starts with another character than `0`, `1` and `2`. -/
def TypeAtFront (type : List Byte) : Prop :=
  match denotedType type with
  | some t => type.headD 0 = 48 + t
  | none => RefusedType type

theorem denotedType_mem {type : List Byte} {t : UInt8} (h : denotedType type = some t) :
    48 + t ∈ ascii "012" := by
  unfold denotedType at h
  split_ifs at h with hnil hle
  injection h with h
  subst h
  interval_cases decimalValue type <;> decide

section Honoured

variable {R : Type} [CacheValueReal R]

/-- What the replies to a request and the table behind it, `table'`, are to be:
    if TYPE denotes a type, a value of that type has been stored under the key,
    and otherwise the request has been rejected with 400 and has not stored
    anything. -/
def TypeOutcome (table : HashTable R) (key type : List Byte) (events : List Event)
    (table' : HashTable R) : Prop :=
  match denotedType type with
  | some t =>
    repliesOf events = [replySuccess []] ∧ ∃ v, hashTableGet table' key = some v ∧ v.type = t
  | none =>
    (∃ message, repliesOf events = [replyBadRequest message]) ∧
      ∀ v, hashTableGet table' key = some v → hashTableGet table key = some v

/-- The request comes to its end, with that outcome. -/
def TypeHonoured (table : HashTable R) (key type : List Byte) (s : CommandState R × Socket) :
    Prop :=
  ∃ n events table' running, (runCommand table n s).1 = .done events table' running ∧
    TypeOutcome table key type events table'

/-- The end of a request is the same at whatever moment it is looked at. -/
theorem typeHonoured_of_done {table : HashTable R} {key type : List Byte}
    {s : CommandState R × Socket} {m : ℕ} {events : List Event} {table' : HashTable R}
    {running : Bool} (hdone : (runCommand table m s).1 = .done events table' running) :
    TypeHonoured table key type s ↔ TypeOutcome table key type events table' := by
  constructor
  · rintro ⟨n, events₁, table₁, running₁, hdone₁, h⟩
    have hsame := runCommand_ended table (m := n) (n := m) (by rw [hdone₁]; simp)
      (by rw [hdone]; simp)
    rw [hsame, hdone] at hdone₁
    cases hdone₁
    exact h
  · intro h
    exact ⟨m, events, table', running, hdone, h⟩

/-- What `memuncached_set` does at its end, for a key that it may store under. -/
theorem memuncachedSetEnd_type (table : HashTable R) {p : PayloadRead} {buffer : List Byte}
    (hput : putTerminators p.payload p.vLength = some buffer) (hwrites : p.writes = [])
    (hfree : p.overwrite = true ∨ hashTableGet table p.key = none) :
    ∃ events table', memuncachedSetEnd table p = .done events table' true ∧
      ((RefusedType p.type ∧ (∃ message, repliesOf events = [replyBadRequest message]) ∧
          hashTableGet table' p.key = none) ∨
        (¬ RefusedType p.type ∧ repliesOf events = [replySuccess []] ∧
          ∃ v, hashTableGet table' p.key = some v ∧ v.type = p.type.headD 0 - 48)) := by
  have hreplies : ∀ reply : List Byte,
      repliesOf (p.events ++ (p.writes ++ [reply]).map .reply) = [reply] := by
    intro reply
    rw [repliesOf_append, repliesOf_events, repliesOf_map_reply, hwrites]
    rfl
  rw [memuncachedSetEnd_eq, exec_setTable, if_pos hfree]
  cases hresult : setResult (R := R) p.key (p.type.headD 0 - 48) p.vLength buffer with
  | none =>
    rw [setValue_rejects hput hresult]
    exact ⟨_, _, rfl, Or.inl ⟨setResult_eq_none.mp hresult, ⟨_, hreplies _⟩,
      hashTableGet_del table p.key⟩⟩
  | some v =>
    have hstored : ¬ RefusedType p.type := by
      intro hrefused
      rw [setResult_eq_none.mpr hrefused] at hresult
      cases hresult
    have htype : v.type = p.type.headD 0 - 48 := by
      unfold setResult at hresult
      split_ifs at hresult <;> exact (Option.some.inj hresult) ▸ rfl
    obtain ⟨hreply, hget⟩ := setValue_stores hput hresult table
    rw [hreply]
    exact ⟨_, _, rfl, Or.inr ⟨hstored, hreplies _, v, hget, htype⟩⟩

/-- The first character decides, for a SET, or an ADD of a new key, whose payload
    arrives. -/
theorem handleCommand_firstCharacter {env : Env} (henv : env.AllocationsSucceed)
    {table : HashTable R} (clientCount : ℕ) {command key type length mem : List Byte} {itr : ℕ}
    {overwrite : Bool}
    (hcall : handleCommandCall command = some (.set key type length itr overwrite, mem))
    (hfree : overwrite = true ∨ hashTableGet table key = none)
    (hmax : (decimalValue length : ℤ) + 2 ≤ intMax) {k : ℕ} (hk : k ≤ decimalValue length + 2)
    {segs : List (List Byte)} {s : List Byte} (hcut : Cut segs s) (ending : StreamEnd)
    (hs : decimalValue length + 2 ≤ k + s.length) :
    ∃ m events table', (runCommand table m (handleCommand env table clientCount command k,
        { segments := segs, ending := ending })).1 = .done events table' true ∧
      ((RefusedType type ∧ (∃ message, repliesOf events = [replyBadRequest message]) ∧
          hashTableGet table' key = none) ∨
        (¬ RefusedType type ∧ repliesOf events = [replySuccess []] ∧
          ∃ v, hashTableGet table' key = some v ∧ v.type = type.headD 0 - 48)) := by
  have hv := atoi_eq_decimalValue (handleCommandCall_set_length hcall) hmax
  have hstart : handleCommand env table clientCount command k =
      memuncachedSet env table key type length (readMem env mem itr k) overwrite := by
    rw [handleCommand, hcall]
    rfl
  obtain ⟨m, buffer, hlen, hrun⟩ := memuncachedSet_arrives henv table key type hv hmax
    (show (readMem env mem itr k).length ≤ decimalValue length + 2 by rwa [length_readMem])
    overwrite hcut ending (by rwa [length_readMem])
  have hput : putTerminators (some buffer) (decimalValue length) = some (store buffer
      (decimalValue length : ℤ).toNat [0, 0]) := putTerminators_some ⟨by omega, by omega⟩
  have hend := @memuncachedSetEnd_type R _ table
    { key := key, type := type, vLength := decimalValue length, payload := some buffer,
      chunkSize := (readMem env mem itr k).length, vLen := 0, overwrite := overwrite,
      writes := [] } _ hput rfl hfree
  obtain ⟨events, table', hdone, h⟩ := hend
  refine ⟨m, events, table', ?_, h⟩
  rw [hstart, hrun]
  exact hdone

theorem replySuccess_ne_replyBadRequest (data message : List Byte) :
    replySuccess data ≠ replyBadRequest message := by
  intro h
  exact not_isOk_replyBadRequest message (h ▸ isOk_replySuccess data)

/-! ## When TYPE is honoured -/

theorem typeHonoured_iff {env : Env} (henv : env.AllocationsSucceed) {table : HashTable R}
    (clientCount : ℕ) {command key type length mem : List Byte} {itr : ℕ} {overwrite : Bool}
    (hcall : handleCommandCall command = some (.set key type length itr overwrite, mem))
    (hfree : overwrite = true ∨ hashTableGet table key = none)
    (hmax : (decimalValue length : ℤ) + 2 ≤ intMax) {k : ℕ} (hk : k ≤ decimalValue length + 2)
    {segs : List (List Byte)} {s : List Byte} (hcut : Cut segs s) (ending : StreamEnd)
    (hs : decimalValue length + 2 ≤ k + s.length) :
    TypeHonoured table key type (handleCommand env table clientCount command k,
        { segments := segs, ending := ending }) ↔
      TypeAtFront type := by
  obtain ⟨m, events, table', hdone, h⟩ :=
    handleCommand_firstCharacter henv clientCount hcall hfree hmax hk hcut ending hs
  rw [typeHonoured_of_done hdone]
  unfold TypeOutcome TypeAtFront
  cases hdenoted : denotedType type with
  | none =>
    rcases h with ⟨hrefused, hreply, hget⟩ | ⟨hstored, hreply, -⟩
    · refine iff_of_true ⟨hreply, fun v hv => ?_⟩ hrefused
      rw [hget] at hv
      cases hv
    · refine iff_of_false ?_ hstored
      rintro ⟨⟨message, hbad⟩, -⟩
      rw [hreply] at hbad
      exact replySuccess_ne_replyBadRequest _ _ (List.head_eq_of_cons_eq hbad)
  | some t =>
    rcases h with ⟨hrefused, ⟨message, hreply⟩, -⟩ | ⟨-, hreply, v, hget, htype⟩
    · refine iff_of_false ?_ fun hfirst => hrefused (hfirst ▸ denotedType_mem hdenoted)
      rintro ⟨hsuccess, -⟩
      rw [hreply] at hsuccess
      exact replySuccess_ne_replyBadRequest _ _ (List.head_eq_of_cons_eq hsuccess).symm
    · constructor
      · rintro ⟨-, v', hget', htype'⟩
        rw [hget] at hget'
        injection hget' with hsame
        have ht : type.headD 0 - 48 = t := htype.symm.trans (hsame ▸ htype')
        show type.headD 0 = 48 + t
        rw [← ht, UInt8.add_comm, UInt8.sub_add_cancel]
      · intro hfirst
        have ht : type.headD 0 - 48 = t := by
          rw [show type.headD 0 = 48 + t from hfirst, UInt8.add_comm, UInt8.add_sub_cancel]
        exact ⟨hreply, v, hget, htype.trans ht⟩

end Honoured

/-- A SET of the decimal 5, or of a value of another TYPE. -/
def setFive (type : List Byte) : List Byte := ascii "SET k " ++ type ++ ascii " 1" ++ [0]

/-- Whether TYPE is honoured in `setFive`, on an empty table. -/
def FiveHonoured (type : List Byte) : Prop :=
  TypeHonoured (hashTableCreate ℚ 1 Nat.one_pos) (ascii "k") type
    (handleCommand Env.zero (hashTableCreate ℚ 1 Nat.one_pos) 1 (setFive type) 0,
      { segments := [ascii "5\r\n"], ending := .idle })

theorem five_cut : Cut [ascii "5\r\n"] (ascii "5\r\n") := ⟨by decide, by decide⟩

theorem typeHonoured_zeros : FiveHonoured (ascii "000") := by
  have hcall : handleCommandCall (setFive (ascii "000")) =
      some (.set (ascii "k") (ascii "000") (ascii "1") 11 true,
        ascii "SET" ++ 0 :: ascii "k" ++ 0 :: ascii "000" ++ 0 :: ascii "1" ++ [0]) := by decide
  exact (typeHonoured_iff Env.zero_allocationsSucceed 1 hcall (Or.inl rfl) (by decide) (by decide)
    five_cut .idle (by decide)).mpr (show (48 : UInt8) = 48 + 0 by decide)

/-- `10` stores a REAL. -/
theorem not_typeHonoured_ten :
    ¬ ∀ type : List Byte, isPositiveDecimal type = true → FiveHonoured type := by
  intro h
  have hcall : handleCommandCall (setFive (ascii "10")) =
      some (.set (ascii "k") (ascii "10") (ascii "1") 10 true,
        ascii "SET" ++ 0 :: ascii "k" ++ 0 :: ascii "10" ++ 0 :: ascii "1" ++ [0]) := by decide
  obtain ⟨m, events, table', hdone, houtcome⟩ :=
    @handleCommand_firstCharacter ℚ _ Env.zero Env.zero_allocationsSucceed
      (hashTableCreate ℚ 1 Nat.one_pos) 1 _ _ _ _ _ _ _ hcall (Or.inl rfl) (by decide) 0
      (by decide) _ _ five_cut .idle (by decide)
  have hten := (typeHonoured_of_done hdone).mp (h (ascii "10") (by decide))
  obtain ⟨⟨message, hbad⟩, -⟩ : (∃ message, repliesOf events = [replyBadRequest message]) ∧ _ := hten
  rcases houtcome with ⟨hrefused, -⟩ | ⟨-, hreply, -⟩
  · exact absurd hrefused (by decide)
  · rw [hreply] at hbad
    exact replySuccess_ne_replyBadRequest _ _ (List.head_eq_of_cons_eq hbad)

end Memuncached.Server
