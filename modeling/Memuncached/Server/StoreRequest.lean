import Memuncached.Server.Answer
import Memuncached.Server.Payload
import Memuncached.Server.ReadLine

/-!
# Requests with a payload

An ADD or SET request is a header line, the payload and a final `\r\n`. Some of
the payload may arrive in the same `recv` as the end of the header; that part
(`chunk` below) has passed the trim of `handle_connection` and the separator
scan of `handle_command` when `memuncached_set` copies it.

* `dispatch_store`: what `memuncached_set` finds behind the payload pointer is
  the trimmed chunk if the chunk does not start with a separator (or is nothing
  but line breaks), and starts with a byte other than its first one otherwise.
* `serve_store`: if the part of the payload that comes with the header is
  `Intact`, `memuncached_set` gets the payload.
-/

namespace Memuncached.Server

open Segments

/-! ## Requests -/

/-- `{CMD} {...ARGS}\r\n`. -/
def headerLine (ws : List (List Byte)) : List Byte := joinWords ws ++ crlf

/-- An ADD or SET request in the documented format. -/
structure StoreRequest where
  cmd : List Byte
  key : List Byte
  type : List Byte
  length : List Byte
  payload : List Byte
  command : commandWord cmd = some .add ∨ commandWord cmd = some .set
  word_cmd : Word cmd
  word_key : Word key
  word_type : Word type
  word_length : Word length
  type_positive : isPositiveDecimal type = true
  length_positive : isPositiveDecimal length = true
  length_eq : decimalValue length = payload.length

namespace StoreRequest

variable (r : StoreRequest)

def words : List (List Byte) := [r.cmd, r.key, r.type, r.length]

/-- `{CMD} {...ARGS} {LENGTH}\r\n`. -/
def header : List Byte := headerLine r.words

/-- `{PAYLOAD}\r\n`. -/
def body : List Byte := r.payload ++ crlf

/-- SET overwrites, ADD does not. -/
def overwrite : Bool := commandWord r.cmd == some .set

theorem word_words : ∀ w ∈ r.words, Word w := by
  intro w hw
  simp only [words, List.mem_cons, List.not_mem_nil, or_false] at hw
  rcases hw with rfl | rfl | rfl | rfl
  · exact r.word_cmd
  · exact r.word_key
  · exact r.word_type
  · exact r.word_length

theorem length_body : r.body.length = r.payload.length + 2 := by
  simp [body, crlf]

end StoreRequest

/-- A line of words ends with a byte that the trim keeps. -/
theorem joinWords_concat {ws : List (List Byte)} (hne : ws ≠ []) (hws : ∀ w ∈ ws, Word w) :
    ∃ pre b, joinWords ws = pre ++ [b] ∧ isNewline b = false := by
  induction ws with
  | nil => exact absurd rfl hne
  | cons w ws ih =>
    cases ws with
    | nil =>
      have hw := hws w List.mem_cons_self
      refine ⟨w.dropLast, w.getLast hw.ne_nil, (List.dropLast_append_getLast hw.ne_nil).symm, ?_⟩
      by_contra h
      rw [Bool.not_eq_false] at h
      have hsep := hw.not_sep _ (List.getLast_mem hw.ne_nil)
      rw [isSep_of_isNewline h] at hsep
      cases hsep
    | cons w' ws =>
      obtain ⟨pre, b, hjoin, hb⟩ := ih (by simp) fun x hx => hws x (List.mem_cons_of_mem _ hx)
      exact ⟨w ++ 32 :: pre, b, by rw [joinWords, hjoin]; simp, hb⟩

/-- A line of words has no newline inside. -/
theorem newline_notMem_joinWords {ws : List (List Byte)} (hws : ∀ w ∈ ws, Word w) :
    (10 : Byte) ∉ joinWords ws := by
  induction ws with
  | nil => simp [joinWords]
  | cons w ws ih =>
    have hw := (hws w List.mem_cons_self).newline_notMem
    cases ws with
    | nil => exact hw
    | cons w' ws =>
      have htail := ih fun x hx => hws x (List.mem_cons_of_mem _ hx)
      rw [joinWords, List.mem_append, List.mem_cons]
      rintro (h | h | h)
      · exact hw h
      · exact absurd h (by decide)
      · exact htail h

theorem commandWord_set :
    commandWord (ascii "SET") = some .add ∨ commandWord (ascii "SET") = some .set := by decide

theorem word_set : Word (ascii "SET") := by decide

theorem word_two : Word (ascii "2") := by decide

theorem isPositiveDecimal_two : isPositiveDecimal (ascii "2") = true := by decide

/-! ## Memory -/

@[simp] theorem length_readMem (env : Env) (mem : List Byte) (off n : ℕ) :
    (readMem env mem off n).length = n := by
  simp [readMem]

theorem getElem?_readMem (env : Env) (mem : List Byte) {off n i : ℕ} (hi : i < n) :
    (readMem env mem off n)[i]? = some (mem.getD (off + i) (env.fresh (off + i))) := by
  simp [readMem, hi]

/-- Reading inside the block. -/
theorem readMem_append (env : Env) (pre bytes rest : List Byte) :
    readMem env (pre ++ (bytes ++ rest)) pre.length bytes.length = bytes := by
  refine List.ext_getElem? fun i => ?_
  by_cases hi : i < bytes.length
  · rw [getElem?_readMem env _ hi, List.getD_eq_getElem?_getD,
      List.getElem?_append_right (Nat.le_add_right _ _), Nat.add_sub_cancel_left,
      List.getElem?_append_left hi, List.getElem?_eq_getElem hi]
    rfl
  · rw [List.getElem?_eq_none (by simpa using hi), List.getElem?_eq_none (by simpa using hi)]

/-- A store leaves the bytes in front of it. -/
theorem getElem?_store_lt {mem bytes : List Byte} {off i : ℕ} (hi : i < off) :
    (store mem off bytes)[i]? = mem[i]? := by
  by_cases hmem : i < mem.length
  · have htake : i < (mem.take off).length := by
      rw [List.length_take]
      omega
    rw [store, List.append_assoc, List.getElem?_append_left htake, List.getElem?_take_of_lt hi]
  · rw [List.getElem?_eq_none (by rw [length_store]; omega), List.getElem?_eq_none (by omega)]

/-! ## The dispatch -/

/-- The payload pointer ends up where the chunk starts. -/
def CleanHead (chunk : List Byte) : Prop :=
  (∀ b ∈ chunk, isNewline b = true) ∨ ∀ b ∈ chunk.head?, isSep b = false

section Handler

variable {R : Type} [CacheValueReal R]

theorem storeCall_words (r : StoreRequest) (itr : ℕ) :
    storeCall (some r.key) (some r.type) (some r.length) itr r.overwrite =
      .set r.key r.type r.length itr r.overwrite := by
  simp [storeCall, r.type_positive, r.length_positive]

/-- The call of the header, with separators behind LENGTH that end at `b`. -/
theorem StoreRequest.handleCommandCall_words (r : StoreRequest) {seps : List Byte} {b : Byte}
    (hseps : ∀ x ∈ seps, isSep x = true) (hb : isSep b = false) (hstop : seps = [] → b = 0)
    (rest : List Byte) :
    ∃ mem, handleCommandCall (joinWords r.words ++ (seps ++ b :: rest)) =
      some (.set r.key r.type r.length mem.length r.overwrite, mem ++ b :: rest) := by
  obtain ⟨mem, -, hmem⟩ := handleCommandCall_store r.command r.word_cmd r.word_key r.word_type
    r.word_length hseps hb hstop rest
  exact ⟨mem, hmem.trans (by rw [← StoreRequest.overwrite, storeCall_words])⟩

/-- The payload pointer behind a header of which nothing but zeros is left. -/
theorem readMem_zeros (env : Env) (mem tail : List Byte) (n : ℕ) :
    readMem env (mem ++ 0 :: (0 :: List.replicate n 0 ++ tail)) mem.length n =
      List.replicate n 0 := by
  have hrep : 0 :: 0 :: List.replicate n (0 : Byte) = List.replicate n 0 ++ [0, 0] :=
    List.replicate_add n 2 0
  have hswap : mem ++ 0 :: (0 :: List.replicate n 0 ++ tail) =
      mem ++ (List.replicate n 0 ++ (0 :: 0 :: tail)) := by
    have hcons : (0 : Byte) :: (0 :: List.replicate n 0 ++ tail) =
        (0 :: 0 :: List.replicate n 0) ++ tail := rfl
    rw [hcons, hrep, List.append_assoc]
    rfl
  have happend := readMem_append env mem (List.replicate n 0) (0 :: 0 :: tail)
  rw [List.length_replicate] at happend
  rw [hswap, happend]

/-- Behind the trim a chunk that is line breaks only has zeroed the header's too. -/
theorem trimmed_crlf_all {chunk : List Byte} (hall : ∀ x ∈ chunk, isNewline x = true) :
    trimmed (crlf ++ chunk) = 0 :: 0 :: List.replicate chunk.length 0 := by
  have hcrlf : ∀ x ∈ crlf, isNewline x = true := by simp [crlf, isNewline]
  rw [trimmed_all fun x hx => (List.mem_append.mp hx).elim (hcrlf x) (hall x),
    List.length_append, Nat.add_comm]
  rfl

/-- The payload pointer of a request with a clean chunk is where the chunk is. -/
theorem StoreRequest.handleCommandCall_clean (env : Env) (r : StoreRequest) {chunk : List Byte}
    (hclean : CleanHead chunk) (tail : List Byte) :
    ∃ mem itr, handleCommandCall (joinWords r.words ++ (trimmed (crlf ++ chunk) ++ tail)) =
        some (.set r.key r.type r.length itr r.overwrite, mem) ∧
      readMem env mem itr chunk.length = trimmed chunk := by
  by_cases hall : ∀ x ∈ chunk, isNewline x = true
  · -- everything behind LENGTH has been zeroed
    obtain ⟨mem, hmem⟩ := @StoreRequest.handleCommandCall_words r [] 0 (by simp) rfl (fun _ => rfl)
      (0 :: List.replicate chunk.length 0 ++ tail)
    refine ⟨mem ++ 0 :: (0 :: List.replicate chunk.length 0 ++ tail), mem.length, ?_, ?_⟩
    · rw [trimmed_crlf_all hall]
      exact hmem
    · rw [readMem_zeros, trimmed_all hall]
  · -- the header's line break is still there, and LENGTH ends at it
    have hex : ∃ x ∈ chunk, isNewline x = false := by
      simpa using hall
    obtain ⟨c, cs, rfl⟩ := List.exists_cons_of_ne_nil (show chunk ≠ [] by rintro rfl; simp at hex)
    have hc : isSep c = false := (hclean.resolve_left hall) c rfl
    have hcs : trimmed (c :: cs) = c :: trimmed cs := trimmed_cons hex
    obtain ⟨mem, hmem⟩ := @StoreRequest.handleCommandCall_words r crlf c (by simp [crlf, isSep]) hc
      (fun hnil => absurd hnil (by decide)) (trimmed cs ++ tail)
    have hread := readMem_append env mem (trimmed (c :: cs)) tail
    rw [length_trimmed] at hread
    refine ⟨mem ++ (trimmed (c :: cs) ++ tail), mem.length, ?_, hread⟩
    rw [trimmed_append hex, hcs, List.append_assoc]
    exact hmem

/-- With another chunk the scan behind LENGTH goes on into it: off the block, or
    up to a byte that is not a separator. -/
theorem StoreRequest.handleCommandCall_unclean (env : Env) (r : StoreRequest) {chunk : List Byte}
    (hclean : ¬ CleanHead chunk) {tail : List Byte} (htail : tail ≠ []) :
    handleCommandCall (joinWords r.words ++ (trimmed (crlf ++ chunk) ++ tail)) = none ∨
      ∃ mem itr, handleCommandCall (joinWords r.words ++ (trimmed (crlf ++ chunk) ++ tail)) =
          some (.set r.key r.type r.length itr r.overwrite, mem) ∧
        ∀ b ∈ (readMem env mem itr chunk.length).head?, isSep b = false := by
  rcases exists_seps (trimmed (crlf ++ chunk) ++ tail) with hoff | ⟨seps, b, rest, heq, hseps, hb⟩
  · exact Or.inl (handleCommandCall_store_off r.command r.word_cmd r.word_key r.word_type
      r.word_length (by simp [htail]) hoff)
  · have hex : ∃ x ∈ chunk, isNewline x = false := by
      simpa using fun hall => hclean (Or.inl hall)
    have hpos : 0 < chunk.length := by
      obtain ⟨x, hx, -⟩ := hex
      exact List.length_pos_of_mem hx
    -- the carriage return of the header is still there, so there are separators
    have hstop : seps = [] → b = 0 := by
      rintro rfl
      rw [trimmed_append hex] at heq
      have hb13 : (13 : Byte) = b := (List.cons.injEq _ _ _ _ ▸ heq).1
      rw [← hb13] at hb
      cases hb
    obtain ⟨mem, hmem⟩ := r.handleCommandCall_words hseps hb hstop rest
    refine Or.inr ⟨mem ++ b :: rest, mem.length, ?_, fun x hx => ?_⟩
    · rw [heq]
      exact hmem
    · rw [List.head?_eq_getElem?, getElem?_readMem env _ hpos] at hx
      simp only [List.getD_eq_getElem?_getD, Nat.add_zero, List.getElem?_append_right le_rfl,
        Nat.sub_self, List.getElem?_cons_zero, Option.getD_some, Option.mem_def,
        Option.some.injEq] at hx
      rw [← hx]
      exact hb

/-- The header of an ADD or SET with `chunk` behind it leads to
    `memuncached_set`, or the scan runs off the block. -/
theorem dispatch_store (env : Env) (h : Handler R) (r : StoreRequest) {rl : ReadLoop}
    {chunk : List Byte} (hr : rl.Holds (r.header ++ chunk)) :
    (¬ CleanHead chunk ∧ h.dispatch env rl chunk.length = { h with control := .fault }) ∨
    ∃ itr found, found.length = chunk.length ∧
      (CleanHead chunk → found = trimmed chunk) ∧
      (¬ CleanHead chunk → ∀ b ∈ found.head?, isSep b = false) ∧
      h.dispatch env rl chunk.length =
        Handler.resume
          { h with log := h.log ++ [.command (r.header ++ chunk)
              (.set r.key r.type r.length itr r.overwrite)] }
          (memuncachedSet env h.table r.key r.type r.length found r.overwrite) := by
  obtain ⟨pre, b, hjoin, hb⟩ := joinWords_concat (by simp [StoreRequest.words]) r.word_words
  have hheader : r.header ++ chunk = pre ++ b :: (crlf ++ chunk) := by
    simp [StoreRequest.header, headerLine, hjoin]
  rw [hheader] at hr ⊢
  obtain ⟨tail, htail, hdispatch⟩ := dispatch_eq env h hr hb
  have hblock : pre ++ b :: (trimmed (crlf ++ chunk) ++ tail) =
      joinWords r.words ++ (trimmed (crlf ++ chunk) ++ tail) := by
    rw [hjoin]
    simp
  rw [hdispatch, hblock]
  by_cases hclean : CleanHead chunk
  · obtain ⟨mem, itr, hcall, hread⟩ := r.handleCommandCall_clean env hclean tail
    rw [hcall]
    exact Or.inr ⟨itr, _, length_readMem env mem itr _, fun _ => hread,
      fun hn => absurd hclean hn, rfl⟩
  · rcases r.handleCommandCall_unclean env hclean htail with hcall | ⟨mem, itr, hcall, hread⟩
    · rw [hcall]
      exact Or.inl ⟨hclean, rfl⟩
    · rw [hcall]
      exact Or.inr ⟨itr, _, length_readMem env mem itr _, fun hn => absurd hn hclean,
        fun _ => hread, rfl⟩

/-! ## `memuncached_set` -/

/-- `atoi` of LENGTH. -/
theorem StoreRequest.atoi_length (r : StoreRequest) :
    atoi r.length = toInt (min int64Max r.payload.length) := by
  have hpos := r.length_positive
  simp only [isPositiveDecimal, Bool.not_eq_true', Bool.or_eq_false_iff, Bool.not_eq_false',
    beq_eq_false_iff_ne] at hpos
  rw [atoi, strtol_decimalString hpos.2 hpos.1, r.length_eq]

theorem StoreRequest.atoi_length_of_le (r : StoreRequest)
    (hn : (r.payload.length : ℤ) + 2 ≤ intMax) : atoi r.length = r.payload.length := by
  have hmin : min int64Max (r.payload.length : ℤ) = r.payload.length := by
    unfold intMax at hn
    unfold int64Max
    omega
  rw [r.atoi_length, hmin, toInt_of_range (by omega) (by omega)]

/-- `memuncached_set` with a payload buffer of `m` bytes copies what it finds
    behind the payload pointer. -/
theorem memuncachedSet_eq_size {env : Env} (table : HashTable R) (key type : List Byte)
    {length : List Byte} {m : ℕ} (hv : atoi length + 2 = m) (hm : (m : ℤ) ≤ intMax)
    (hgrant : env.granted m = true) {found : List Byte} (hk : found.length ≤ m)
    (overwrite : Bool) :
    memuncachedSet env table key type length found overwrite =
      payloadLoop table
        { key := key, type := type, vLength := atoi length,
          payload := some (found ++ List.replicate (m - found.length) 0),
          chunkSize := found.length, vLen := atoi length + 2 - found.length,
          overwrite := overwrite, writes := [] } := by
  have hcalloc : calloc env (m : ℤ) = some (List.replicate m 0) := by
    rw [calloc, Int.toNat_natCast, if_pos ⟨Int.natCast_nonneg m, hgrant⟩]
  have hcopy : copyChunk (some (List.replicate m 0)) found =
      some (some (found ++ List.replicate (m - found.length) 0)) := by
    unfold copyChunk
    by_cases h0 : found.length = 0
    · have hnil := List.eq_nil_of_length_eq_zero h0
      subst hnil
      rfl
    · have hstore := @store_append [] (List.replicate m 0) found 0 rfl
        (by rw [List.length_replicate]; omega)
      rw [List.nil_append, List.nil_append, List.drop_replicate] at hstore
      rw [if_neg h0]
      dsimp only
      rw [if_pos (by rw [List.length_replicate]; omega), hstore]
  unfold memuncachedSet
  dsimp only
  rw [hv, if_neg (by omega), hcalloc, hcopy]
  rfl

/-- The same for a length that is no negative number. -/
theorem memuncachedSet_eq {env : Env} (henv : env.AllocationsSucceed) (table : HashTable R)
    (key type : List Byte) {length : List Byte} {n : ℕ} (hv : atoi length = n)
    (hn : (n : ℤ) + 2 ≤ intMax) {found : List Byte} (hk : found.length ≤ n + 2)
    (overwrite : Bool) :
    memuncachedSet env table key type length found overwrite =
      payloadLoop table
        { key := key, type := type, vLength := n,
          payload := some (found ++ List.replicate (n + 2 - found.length) 0),
          chunkSize := found.length, vLen := (n : ℤ) + 2 - found.length,
          overwrite := overwrite, writes := [] } := by
  have hsize : atoi length + 2 = ((n + 2 : ℕ) : ℤ) := by omega
  rw [memuncachedSet_eq_size table key type hsize (by omega) (henv _) hk, hv]

/-- With the whole payload in the stream `memuncached_set` comes to the end of its
    payload loop with a full buffer. -/
theorem memuncachedSet_arrives {env : Env} (henv : env.AllocationsSucceed) (table : HashTable R)
    (key type : List Byte) {length found : List Byte} {n : ℕ} (hv : atoi length = n)
    (hn : (n : ℤ) + 2 ≤ intMax) (hk : found.length ≤ n + 2) (overwrite : Bool)
    {segs : List (List Byte)} {s : List Byte} (hcut : Cut segs s) (ending : StreamEnd)
    (hs : n + 2 ≤ found.length + s.length) :
    ∃ m buffer, buffer.length = n + 2 ∧
      runCommand table m (memuncachedSet env table key type length found overwrite,
          { segments := segs, ending := ending }) =
        (memuncachedSetEnd table
            { key := key, type := type, vLength := n, payload := some buffer,
              chunkSize := found.length, vLen := 0, overwrite := overwrite, writes := [] },
          { segments := dropBytes (n + 2 - found.length) segs, ending := ending }) := by
  rw [memuncachedSet_eq henv table key type hv hn hk]
  have hrest : (List.replicate (n + 2 - found.length) (0 : Byte)).length = n + 2 - found.length :=
    List.length_replicate
  obtain ⟨m, hrun⟩ := runCommand_payload table ending
    { key := key, type := type, vLength := n,
      payload := some (found ++ List.replicate (n + 2 - found.length) 0),
      chunkSize := found.length, vLen := (n : ℤ) + 2 - found.length,
      overwrite := overwrite, writes := [] }
    rfl (by dsimp only; omega) (by dsimp only; omega) hcut (by omega)
  rw [hrest] at hrun
  refine ⟨m, _, ?_, hrun⟩
  rw [List.length_append, List.length_take]
  omega

/-- The payload loop with `buffer` so far and `k` bytes received. -/
def StoreRequest.loop (r : StoreRequest) (buffer : List Byte) (k : ℕ) (vLen : ℤ) : PayloadRead where
  key := r.key
  type := r.type
  vLength := r.payload.length
  payload := some buffer
  chunkSize := k
  vLen := vLen
  overwrite := r.overwrite
  writes := []

/-- `memuncached_set` on a request with a sound length. -/
theorem memuncachedSet_store {env : Env} (henv : env.AllocationsSucceed) (table : HashTable R)
    (r : StoreRequest) (hn : (r.payload.length : ℤ) + 2 ≤ intMax) {found : List Byte}
    (hk : found.length ≤ r.payload.length + 2) :
    memuncachedSet env table r.key r.type r.length found r.overwrite =
      payloadLoop table (r.loop
        (found ++ List.replicate (r.payload.length + 2 - found.length) 0) found.length
        ((r.payload.length : ℤ) + 2 - found.length)) :=
  memuncachedSet_eq henv table r.key r.type (r.atoi_length_of_le hn) hn hk r.overwrite

/-- The replies to the request and the table behind it, when its payload
    arrives. -/
def StoreRequest.perform (r : StoreRequest) (table : HashTable R) :
    Option (List (List Byte)) × HashTable R :=
  TableProg.exec (setTable r.key r.type r.payload.length (some r.body) r.overwrite) table

/-- The two bytes behind the payload make no difference. -/
theorem putTerminators_eq {buffer payload : List Byte}
    (hlen : buffer.length = payload.length + 2) (htake : buffer.take payload.length = payload) :
    putTerminators (some buffer) payload.length = some (payload ++ [0, 0]) := by
  have hdrop : buffer.drop (payload.length + 2) = [] := List.drop_eq_nil_of_le (by omega)
  have hroom : buffer.length - payload.length = 2 := by omega
  simp only [putTerminators, Option.bind_eq_bind, Option.bind_some]
  rw [if_pos ⟨by omega, by omega⟩, Int.toNat_natCast, store, htake, hroom]
  simp [hdrop]

theorem setTable_congr (key type : List Byte) {vLength : ℤ} {p q : Option (List Byte)}
    (h : putTerminators p vLength = putTerminators q vLength) (overwrite : Bool) :
    (setTable key type vLength p overwrite : TableProg R _) =
      setTable key type vLength q overwrite := by
  unfold setTable setValue
  rw [h]

/-- A full buffer always gets a reply. -/
theorem setTable_ne_none (key type : List Byte) {vLength : ℤ} {p : Option (List Byte)}
    {buffer : List Byte} (h : putTerminators p vLength = some buffer) (overwrite : Bool)
    (table : HashTable R) :
    (TableProg.exec (setTable key type vLength p overwrite) table).1 ≠ none := by
  rw [exec_setTable]
  split_ifs
  · cases hresult : setResult (R := R) key (type.headD 0 - 48) vLength buffer with
    | none => simp [setValue_rejects h hresult]
    | some v => simp [(setValue_stores h hresult table).1]
  · simp

/-- `memuncached_set` with the whole payload in its buffer. -/
theorem memuncachedSetEnd_store (table : HashTable R) (r : StoreRequest) {found rest : List Byte}
    (hlen : (found ++ rest).length = r.payload.length + 2)
    (htake : (found ++ rest).take r.payload.length = r.payload) :
    ∃ reply, (r.perform table).1 = some [reply] ∧
      memuncachedSetEnd table (r.loop (found ++ rest) found.length 0) =
        .done [.payload rest r.payload, .reply reply] (r.perform table).2 true := by
  have hput : putTerminators (some (found ++ rest)) r.payload.length =
      putTerminators (some r.body) r.payload.length := by
    rw [putTerminators_eq hlen htake, putTerminators_eq r.length_body (by simp [StoreRequest.body])]
  have hprog := setTable_congr (R := R) r.key r.type hput r.overwrite
  have hsome := putTerminators_eq r.length_body
    (show r.body.take r.payload.length = r.payload by simp [StoreRequest.body])
  obtain ⟨reply, hreply⟩ := (setTable_repliesOnce r.key r.type r.payload.length (some r.body)
    r.overwrite table).resolve_left (setTable_ne_none r.key r.type hsome r.overwrite table)
  refine ⟨reply, hreply, ?_⟩
  have hexec : TableProg.exec (setTable r.key r.type r.payload.length (some (found ++ rest))
      r.overwrite) table = r.perform table := by
    rw [hprog]
    rfl
  rw [memuncachedSetEnd_eq]
  simp only [StoreRequest.loop, hexec]
  rw [StoreRequest.perform, hreply]
  simp only [PayloadRead.events, List.drop_left, Int.toNat_natCast, htake]
  rfl

/-! ## The part that comes with the header -/

/-- Neither the separator scan nor the trim touches the bytes. -/
structure Intact (part : List Byte) : Prop where
  head : ∀ b ∈ part.head?, isSep b = false
  last : ∀ b ∈ part.getLast?, isNewline b = false

theorem intact_nil : Intact [] := ⟨by simp, by simp⟩

/-- The cut is harmless for the request: `k` bytes arrive in the same `recv` as
    the end of its header, none of a later request, and the payload among them
    is intact; and the length fits into an `int`. -/
structure StoreRequest.CleanAt (r : StoreRequest) (k : ℕ) : Prop where
  length_le : (r.payload.length : ℤ) + 2 ≤ intMax
  spill_le : k ≤ r.payload.length + 2
  intact : Intact (r.payload.take k)

theorem take_body (r : StoreRequest) (k : ℕ) :
    r.body.take k = r.payload.take k ++ crlf.take (k - r.payload.length) := List.take_append

theorem isNewline_of_mem_crlf {b : Byte} (h : b ∈ crlf) : isNewline b = true := by
  simp only [crlf, List.mem_cons, List.not_mem_nil, or_false] at h
  rcases h with rfl | rfl <;> rfl

/-- An intact part reaches the payload buffer. -/
theorem trimmed_of_intact (r : StoreRequest) {k : ℕ} (h : Intact (r.payload.take k)) :
    CleanHead (r.body.take k) ∧
      (trimmed (r.body.take k) ++ r.body.drop k).take r.payload.length = r.payload := by
  rw [take_body]
  have hnl : ∀ b ∈ crlf.take (k - r.payload.length), isNewline b = true :=
    fun b hb => isNewline_of_mem_crlf (List.mem_of_mem_take hb)
  rcases List.eq_nil_or_concat (r.payload.take k) with hnil | ⟨part, b, hpart⟩
  · -- nothing of the payload has come, or it is empty
    rw [hnil, List.nil_append]
    refine ⟨Or.inl hnl, ?_⟩
    rcases Nat.eq_zero_or_pos k with rfl | hk
    · simp [trimmed, StoreRequest.body]
    · have hp : r.payload = [] := by
        cases hpay : r.payload with
        | nil => rfl
        | cons a as =>
          obtain ⟨m, rfl⟩ := Nat.exists_eq_succ_of_ne_zero (by omega : k ≠ 0)
          rw [hpay] at hnil
          cases hnil
      simp [hp]
  · rw [List.concat_eq_append] at hpart
    have hb : isNewline b = false := h.last b (by rw [hpart]; simp)
    have hhead := h.head
    have htrim : trimmed (part ++ [b] ++ crlf.take (k - r.payload.length)) =
        part ++ [b] ++ trimmed (crlf.take (k - r.payload.length)) := by
      rw [List.append_assoc, trimmed_append ⟨b, by simp, hb⟩]
      simp [trimmed, hb]
    rw [hpart] at hhead ⊢
    constructor
    · refine Or.inr fun x hx => hhead x ?_
      rwa [List.head?_append_of_ne_nil _ (by simp)] at hx
    · rw [htrim, ← hpart]
      rcases Nat.lt_or_ge k r.payload.length with hk | hk
      · have hzero : k - r.payload.length = 0 := by omega
        have hdrop : r.body.drop k = r.payload.drop k ++ crlf := by
          rw [StoreRequest.body, List.drop_append_of_le_length (by omega)]
        rw [hzero, hdrop, List.take_zero, trimmed, List.append_nil, ← List.append_assoc,
          List.take_append_drop, List.take_left]
      · rw [List.take_of_length_le hk, List.append_assoc, List.take_left]

/-! ## The whole request -/

/-- The read loop on a line of words: `spill` bytes behind it come with it. -/
theorem serve_headerLine {env : Env} (henv : env.AllocationsSucceed) (ending : StreamEnd)
    {h : Handler R} (hc : h.control = .recvLine ReadLoop.init) {ws : List (List Byte)}
    (hws : (10 : Byte) ∉ joinWords ws) {segs : List (List Byte)} {rest : List Byte}
    (hcut : Cut segs (headerLine ws ++ rest)) :
    ∃ n rl, rl.Holds (headerLine ws ++
        rest.take (spill connectionRecvLength segs (headerLine ws).length)) ∧
      spill connectionRecvLength segs (headerLine ws).length ≤ rest.length ∧
      serve env n (h, { segments := segs, ending := ending }) =
        (h.dispatch env rl (spill connectionRecvLength segs (headerLine ws).length),
          { segments := dropBytes ((headerLine ws).length +
              spill connectionRecvLength segs (headerLine ws).length) segs,
            ending := ending }) := by
  have hline : headerLine ws ++ rest = (joinWords ws ++ [13]) ++ 10 :: rest := by
    simp [headerLine, crlf]
  have hlen : (joinWords ws ++ [13]).length + 1 = (headerLine ws).length := by
    simp [headerLine, crlf]
  have hnl : (10 : Byte) ∉ joinWords ws ++ [13] := by
    rw [List.mem_append, List.mem_singleton]
    rintro (hmem | hmem)
    · exact hws hmem
    · exact absurd hmem (by decide)
  rw [hline] at hcut
  obtain ⟨n, rl, hrl, hle, hserve⟩ := serve_readLine henv ending (joinWords ws ++ [13]) hc
    holds_init hcut hnl
  rw [hlen] at hrl hle hserve
  refine ⟨n, rl, ?_, hle, hserve⟩
  have hrec : [] ++ (joinWords ws ++ [13]) ++
      10 :: rest.take (spill connectionRecvLength segs (headerLine ws).length) =
      headerLine ws ++ rest.take (spill connectionRecvLength segs (headerLine ws).length) := by
    simp [headerLine, crlf]
  rwa [hrec] at hrl

/-- A store request whose cut is harmless is carried out. -/
theorem serve_store {env : Env} (henv : env.AllocationsSucceed) (ending : StreamEnd)
    {h : Handler R} (hc : h.control = .recvLine ReadLoop.init) (hrun : h.isThreadRunning = true)
    (r : StoreRequest) {segs : List (List Byte)} {later : List Byte}
    (hcut : Cut segs (r.header ++ (r.body ++ later)))
    (hclean : r.CleanAt (spill connectionRecvLength segs r.header.length)) :
    ∃ n itr reply, (r.perform h.table).1 = some [reply] ∧
      serve env n (h, { segments := segs, ending := ending }) =
        ({ h with
            table := (r.perform h.table).2
            log := h.log ++
              [.command
                  (r.header ++ r.body.take (spill connectionRecvLength segs r.header.length))
                  (.set r.key r.type r.length itr r.overwrite),
                .payload (r.body.drop (spill connectionRecvLength segs r.header.length)) r.payload,
                .reply reply] },
          { segments := dropBytes (r.header.length + r.body.length) segs, ending := ending }) := by
  obtain ⟨n, rl, hrl, hle, hserve⟩ := serve_headerLine henv ending hc
    (newline_notMem_joinWords r.word_words) hcut
  rw [← StoreRequest.header] at hrl hle hserve
  set k := spill connectionRecvLength segs r.header.length with hk
  have hkn := hclean.spill_le
  have hchunk : (r.body ++ later).take k = r.body.take k :=
    List.take_append_of_le_length (by rw [r.length_body]; omega)
  have hclen : (r.body.take k).length = k := by
    rw [List.length_take, r.length_body]
    omega
  rw [hchunk] at hrl
  obtain ⟨hhead, htake⟩ := trimmed_of_intact r hclean.intact
  rcases dispatch_store env h r hrl with ⟨hoff, -⟩ | ⟨itr, found, hflen, hfound, -, hdispatch⟩
  · exact absurd hhead hoff
  rw [hclen] at hdispatch hflen
  have hfl : found.length = k := hflen
  have hset := memuncachedSet_store henv h.table r hclean.length_le (by omega : found.length ≤ _)
  rw [hfound hhead] at hset hdispatch
  rw [length_trimmed, hclen] at hset
  set log := h.log ++ [Event.command (r.header ++ r.body.take k)
    (.set r.key r.type r.length itr r.overwrite)] with hlog
  -- the rest of the body comes through the payload loop
  have hcut' : Cut (dropBytes (r.header.length + k) segs) (r.body.drop k ++ later) := by
    have hdrop := hcut.dropBytes (r.header.length + k)
    rwa [← List.drop_drop, List.drop_left,
      List.drop_append_of_le_length (by rw [r.length_body]; omega)] at hdrop
  have hfill : (List.replicate (r.payload.length + 2 - k) (0 : Byte)).length =
      (r.body.drop k).length := by
    rw [List.length_replicate, List.length_drop, r.length_body]
  obtain ⟨m, hpayload⟩ := serve_payload env { h with log := log } ending
    (r.loop (trimmed (r.body.take k) ++ List.replicate (r.payload.length + 2 - k) 0) k
      ((r.payload.length : ℤ) + 2 - k)) rfl
    (show (r.payload.length : ℤ) + 2 = _ by
      rw [length_trimmed, hclen, List.length_replicate]
      omega)
    (show (r.payload.length : ℤ) + 2 - k = _ by
      rw [List.length_replicate]
      omega)
    hcut' (by rw [hfill, List.length_append]; omega)
  have hrest : (r.body.drop k ++ later).take
      (List.replicate (r.payload.length + 2 - k) (0 : Byte)).length = r.body.drop k := by
    rw [hfill, List.take_left]
  obtain ⟨reply, hreply, hend⟩ := @memuncachedSetEnd_store R _ h.table r (trimmed (r.body.take k))
    (r.body.drop k)
    (by rw [List.length_append, length_trimmed, ← List.length_append, List.take_append_drop,
      r.length_body])
    htake
  rw [length_trimmed, hclen] at hend
  refine ⟨m + n, itr, reply, hreply, ?_⟩
  rw [serve_add, hserve, hdispatch, hset, hpayload, hrest, hfill, dropBytes_add hcut.ne_nil]
  refine congrArg₂ Prod.mk ?_ ?_
  · show Handler.resume { h with log := log }
      (memuncachedSetEnd h.table (r.loop (trimmed (r.body.take k) ++ r.body.drop k) k 0)) = _
    rw [hend]
    simp only [Handler.resume, Handler.loopTop, hrun, Bool.and_true, if_true, hlog,
      List.append_assoc, List.cons_append, List.nil_append, ← hc]
  · have hsum : r.header.length + k + (r.body.drop k).length = r.header.length + r.body.length := by
      rw [List.length_drop, r.length_body]
      omega
    rw [hsum]

end Handler

end Memuncached.Server
