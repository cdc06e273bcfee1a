import Memuncached.Server.StoreRequest

/-!
# Spoiled payloads

When the part of a payload that comes with its header is not intact, or the
length does not fit into an `int`, the handler never has the payload in its
buffer, however the rest of the stream arrives.

* `exists_differ`: a part that is not `Intact` reaches the buffer with a byte
  changed.
* `payloadRecv_spoiled`: the payload loop writes only behind what is filled in,
  so that a spoiled buffer stays spoiled.
* `step_spoiled`: a handler with a spoiled buffer will not log the payload.
-/

namespace Memuncached.Server

open Segments

section Handler

variable {R : Type} [CacheValueReal R]

/-! ## Spoiled buffers -/

/-- The payload loop can no longer end with `payload` in its buffer: there is
    no buffer, it is too short, or a byte already filled in differs. -/
structure PayloadRead.Spoiled (p : PayloadRead) (payload : List Byte) : Prop where
  writes : p.payload = none → p.writes ≠ []
  buffer : ∀ buffer ∈ p.payload, p.vLength.toNat < payload.length ∨
    ∃ i : ℕ, (i : ℤ) < p.vLength + 2 - p.vLen ∧ i < payload.length ∧ buffer[i]? ≠ payload[i]?

theorem PayloadRead.Spoiled.take_ne {p : PayloadRead} {payload buffer : List Byte}
    (h : p.Spoiled payload) (hp : p.payload = some buffer) :
    buffer.take p.vLength.toNat ≠ payload := by
  intro htake
  have hlen := congrArg List.length htake
  rw [List.length_take] at hlen
  rcases h.buffer buffer hp with hlt | ⟨i, -, hi, hne⟩
  · omega
  · apply hne
    rw [← htake, List.getElem?_take_of_lt (by omega)]

/-- The command does not get `payload`, whatever comes. -/
def CommandState.Spoiled (payload : List Byte) : CommandState R → Prop
  | .done events _ _ => ∃ e more, events = e :: more ∧ ∀ read, e ≠ .payload read payload
  | .recv p => p.Spoiled payload
  | .fault => True

theorem memuncachedSetEnd_spoiled (table : HashTable R) {p : PayloadRead} {payload : List Byte}
    (h : p.Spoiled payload) : (memuncachedSetEnd table p).Spoiled payload := by
  rw [memuncachedSetEnd_eq]
  cases (TableProg.exec (setTable p.key p.type p.vLength p.payload p.overwrite) table).1 with
  | none => exact trivial
  | some replies =>
    cases hp : p.payload with
    | none =>
      obtain ⟨w, ws, hw⟩ := List.exists_cons_of_ne_nil (h.writes hp)
      refine ⟨.reply w, (ws ++ replies).map .reply, ?_, fun read => by simp⟩
      simp [PayloadRead.events, hp, hw]
    | some buffer =>
      refine ⟨.payload (buffer.drop p.chunkSize) (buffer.take p.vLength.toNat),
        (p.writes ++ replies).map .reply, ?_, fun read heq => ?_⟩
      · simp only [PayloadRead.events, hp]
        rfl
      · injection heq with _ htake
        exact h.take_ne hp htake

theorem payloadLoop_spoiled (table : HashTable R) {p : PayloadRead} {payload : List Byte}
    (h : p.Spoiled payload) : (payloadLoop table p).Spoiled payload := by
  unfold payloadLoop
  split_ifs
  · exact h
  · exact memuncachedSetEnd_spoiled table h

/-- A `recv` writes behind what is filled in. -/
theorem PayloadRead.Spoiled.data {p : PayloadRead} {payload : List Byte} (h : p.Spoiled payload)
    (bytes : List Byte) :
    PayloadRead.Spoiled
      { p with
        payload := p.payload.map fun buffer => store buffer (p.vLength + 2 - p.vLen).toNat bytes
        vLen := p.vLen - bytes.length } payload := by
  refine ⟨fun hnone => h.writes (Option.map_eq_none_iff.mp hnone), ?_⟩
  intro buffer hbuffer
  obtain ⟨old, hold, rfl⟩ := Option.map_eq_some_iff.mp hbuffer
  rcases h.buffer old hold with hlt | ⟨i, hi, hlt, hne⟩
  · exact Or.inl hlt
  · refine Or.inr ⟨i, ?_, hlt, ?_⟩
    · show (i : ℤ) < p.vLength + 2 - (p.vLen - bytes.length)
      omega
    · rw [getElem?_store_lt (by omega)]
      exact hne

/-- Reading on does not repair the buffer. -/
theorem payloadRecv_spoiled (table : HashTable R) {p : PayloadRead} {payload : List Byte}
    (h : p.Spoiled payload) (result : RecvResult) :
    (payloadRecv table p result).Spoiled payload := by
  cases result with
  | data bytes => exact payloadLoop_spoiled table (h.data bytes)
  | eof => exact payloadLoop_spoiled table h
  | error =>
    cases hw : p.writes with
    | nil => exact ⟨_, _, by rw [hw]; rfl, fun read => by simp⟩
    | cons w ws => exact ⟨_, _, by rw [hw]; rfl, fun read => by simp⟩
  | block => exact h

/-- The handler has logged `log` and will not log `payload` next. -/
def SpoiledRun (log : List Event) (payload : List Byte) (h : Handler R) : Prop :=
  (h.log = log ∧
    (h.control = .fault ∨ ∃ p, h.control = .recvPayload p ∧ p.Spoiled payload)) ∨
  ∃ e more, h.log = log ++ e :: more ∧ ∀ read, e ≠ .payload read payload

omit [CacheValueReal R] in
theorem resume_spoiled (h : Handler R) {payload : List Byte} {s : CommandState R}
    (hs : s.Spoiled payload) : SpoiledRun h.log payload (h.resume s) := by
  cases s with
  | done events table running =>
    obtain ⟨e, more, rfl, he⟩ := hs
    exact Or.inr ⟨e, more, rfl, he⟩
  | recv p => exact Or.inl ⟨rfl, Or.inr ⟨p, rfl, hs⟩⟩
  | fault => exact Or.inl ⟨rfl, Or.inl rfl⟩

theorem step_spoiled (env : Env) {log : List Event} {payload : List Byte} (h : Handler R)
    (result : RecvResult) (hs : SpoiledRun log payload h) :
    SpoiledRun log payload (h.step env result) := by
  rcases hs with ⟨hlog, hc | ⟨p, hc, hp⟩⟩ | ⟨e, more, hlog, he⟩
  · have hstep : h.step env result = h := by
      unfold Handler.step
      rw [hc]
    rw [hstep]
    exact Or.inl ⟨hlog, Or.inl hc⟩
  · rw [step_recvPayload env hc, ← hlog]
    exact resume_spoiled h (payloadRecv_spoiled h.table hp result)
  · obtain ⟨more', hmore⟩ := step_log env h result
    exact Or.inr ⟨e, more ++ more', by rw [← hmore, hlog]; simp, he⟩

/-- A length beyond `INT_MAX - 2` spoils every payload. -/
theorem memuncachedSet_overflow (env : Env) (table : HashTable R) (r : StoreRequest)
    (hn : intMax < (r.payload.length : ℤ) + 2) (found : List Byte) :
    (memuncachedSet env table r.key r.type r.length found r.overwrite).Spoiled r.payload := by
  unfold memuncachedSet
  dsimp only
  by_cases hv : atoi r.length + 2 > intMax
  · rw [if_pos hv]
    exact trivial
  · rw [if_neg hv]
    have hcopy : ∀ payload, copyChunk (calloc env (atoi r.length + 2)) found = some payload →
        payload = none → calloc env (atoi r.length + 2) = none := by
      intro payload hsome hnone
      subst hnone
      unfold copyChunk at hsome
      split_ifs at hsome
      · simpa using hsome
      · cases hcalloc : calloc env (atoi r.length + 2) with
        | none => rfl
        | some buffer =>
          rw [hcalloc] at hsome
          dsimp only at hsome
          split_ifs at hsome
          simp at hsome
    cases hchunk : copyChunk (calloc env (atoi r.length + 2)) found with
    | none => exact trivial
    | some payload =>
      refine payloadLoop_spoiled table ⟨fun hnone => ?_, fun buffer _ => Or.inl ?_⟩
      · show (if (calloc env (atoi r.length + 2)).isNone then _ else _) ≠ _
        rw [hcopy payload hchunk hnone]
        simp
      · have hmax : 2 < intMax := by decide
        show (atoi r.length).toNat < _
        omega

/-- So does a byte that does not survive on its way through the chunk. -/
theorem StoreRequest.loop_spoiled (r : StoreRequest) {found rest : List Byte} {i : ℕ}
    (hi : i < found.length) (hin : i < r.payload.length) (hne : found[i]? ≠ r.payload[i]?) :
    (r.loop (found ++ rest) found.length
      ((r.payload.length : ℤ) + 2 - found.length)).Spoiled r.payload := by
  refine ⟨fun hnone => (by cases hnone), ?_⟩
  rintro buffer ⟨⟩
  refine Or.inr ⟨i, ?_, hin, ?_⟩
  · show (i : ℤ) < (r.payload.length : ℤ) + 2 - ((r.payload.length : ℤ) + 2 - found.length)
    omega
  · rw [List.getElem?_append_left hi]
    exact hne

end Handler

/-- A part that is not intact reaches the buffer with a byte changed. -/
theorem exists_differ (r : StoreRequest) {k : ℕ} (hk : k ≤ r.payload.length + 2)
    (h : ¬ Intact (r.payload.take k)) {found : List Byte}
    (hlen : found.length = (r.body.take k).length)
    (hclean : CleanHead (r.body.take k) → found = trimmed (r.body.take k))
    (hoff : ¬ CleanHead (r.body.take k) → ∀ b ∈ found.head?, isSep b = false) :
    ∃ i < found.length, i < r.payload.length ∧ found[i]? ≠ r.payload[i]? := by
  have hne : r.payload.take k ≠ [] := by
    intro hnil
    rw [hnil] at h
    exact h ⟨by simp, by simp⟩
  have hpos : 0 < k ∧ 0 < r.payload.length := by
    constructor
    · exact Nat.pos_of_ne_zero (by rintro rfl; exact hne List.take_zero)
    · exact List.length_pos_of_ne_nil (by rintro hp; rw [hp, List.take_nil] at hne; exact hne rfl)
  have hflen : found.length = k := by
    rw [hlen, List.length_take, r.length_body]
    omega
  have hbody : ∀ i < r.payload.length, r.body[i]? = r.payload[i]? :=
    fun i hi => List.getElem?_append_left hi
  by_cases hhead : ∀ b ∈ (r.payload.take k).head?, isSep b = false
  · -- the last byte that came with the header is a line break and is zeroed
    have hlast : ¬ ∀ b ∈ (r.payload.take k).getLast?, isNewline b = false :=
      fun hl => h ⟨hhead, hl⟩
    push Not at hlast
    obtain ⟨b, hb, hnl⟩ := hlast
    rw [ne_eq, Bool.not_eq_false] at hnl
    obtain ⟨part, hpart⟩ := List.getLast?_eq_some_iff.mp hb
    have hplen : part.length + 1 = min k r.payload.length := by
      rw [← List.length_take, hpart, List.length_append, List.length_singleton]
    have hcleanHead : CleanHead (r.body.take k) := by
      refine Or.inr fun x hx => hhead x ?_
      rwa [take_body, List.head?_append_of_ne_nil _ hne] at hx
    have hdrop : (r.body.take k).drop part.length = b :: crlf.take (k - r.payload.length) := by
      rw [take_body, hpart, List.append_assoc, List.drop_left]
      rfl
    have hall : ((r.body.take k).drop part.length).all isNewline = true := by
      rw [hdrop, List.all_eq_true]
      intro x hx
      rcases List.mem_cons.mp hx with rfl | hx
      · exact hnl
      · exact isNewline_of_mem_crlf (List.mem_of_mem_take hx)
    have hbyte : (r.body.take k)[part.length]? = some b := by
      rw [← List.head?_drop, hdrop]
      rfl
    refine ⟨part.length, by omega, by omega, ?_⟩
    rw [hclean hcleanHead, getElem?_trimmed, hall, hbyte, ← hbody _ (by omega),
      ← List.getElem?_take_of_lt (by omega : part.length < k), hbyte]
    simp only [Option.map_some, if_true, ne_eq, Option.some.injEq]
    rintro rfl
    cases hnl
  · -- the payload starts with a separator, which the scan does not stop at
    push Not at hhead
    obtain ⟨b, hb, hsep⟩ := hhead
    rw [ne_eq, Bool.not_eq_false] at hsep
    have hfirst : r.payload[0]? = some b := by
      rwa [Option.mem_def, List.head?_eq_getElem?, List.getElem?_take_of_lt hpos.1] at hb
    have hnot : ∀ x ∈ found.head?, isSep x = false := by
      by_cases hch : CleanHead (r.body.take k)
      · rcases hch with hall | hno
        · rw [hclean (Or.inl hall), trimmed_all hall]
          intro x hx
          rw [List.mem_replicate.mp (List.mem_of_mem_head? hx) |>.2]
          rfl
        · have hmem : b ∈ (r.body.take k).head? := by
            rw [take_body, List.head?_append_of_ne_nil _ hne]
            exact hb
          rw [hno b hmem] at hsep
          cases hsep
      · exact hoff hch
    refine ⟨0, by omega, hpos.2, fun heq => ?_⟩
    rw [hfirst, ← List.head?_eq_getElem?] at heq
    rw [hnot b heq] at hsep
    cases hsep

/-! ## The whole request -/

/-- A store request whose cut is not harmless is never dispatched as it was
    sent: bytes of a later request come along, the scan leaves the block, or
    the payload is spoiled. -/
theorem serve_store_not {R : Type} [CacheValueReal R] {env : Env}
    (henv : env.AllocationsSucceed) (ending : StreamEnd) {h : Handler R}
    (hc : h.control = .recvLine ReadLoop.init) (r : StoreRequest) {segs : List (List Byte)}
    {later : List Byte} (hcut : Cut segs (r.header ++ (r.body ++ later)))
    (hclean : ¬ r.CleanAt (spill connectionRecvLength segs r.header.length)) (k : ℕ) (call : Call)
    (read : List Byte) (more : List Event) (n : ℕ) :
    (serve env n (h, { segments := segs, ending := ending })).1.log ≠
      h.log ++ .command (r.header ++ r.body.take k) call :: .payload read r.payload :: more := by
  intro hlog
  obtain ⟨m, rl, hrl, hle, hserve⟩ := serve_headerLine henv ending hc
    (newline_notMem_joinWords r.word_words) hcut
  rw [← StoreRequest.header] at hrl hle hserve
  set k' := spill connectionRecvLength segs r.header.length with hk'
  set chunk := (r.body ++ later).take k' with hchunk
  have hclen : chunk.length = k' := by rw [hchunk, List.length_take, min_eq_left hle]
  have hfar := serve_log_later hlog m
  rw [Nat.add_comm, serve_add, hserve] at hfar
  rcases dispatch_store env h r hrl with ⟨-, hfault⟩ | ⟨itr, found, hflen, hfound, hoff, hset⟩
  · rw [hclen] at hfault
    rw [hfault, serve_stopped env (Or.inr rfl)] at hfar
    have hlen := hfar.length_le
    simp only [List.length_append, List.length_cons] at hlen
    omega
  · rw [hclen] at hset
    set log := h.log ++ [Event.command (r.header ++ chunk)
      (.set r.key r.type r.length itr r.overwrite)] with hlogd
    by_cases hfit : k' ≤ r.payload.length + 2
    · -- only bytes of the request itself came along, but they spoil the payload
      have hown : chunk = r.body.take k' :=
        List.take_append_of_le_length (by rw [r.length_body]; exact hfit)
      have hspoiled : (memuncachedSet env h.table r.key r.type r.length found
          r.overwrite).Spoiled r.payload := by
        by_cases hn : (r.payload.length : ℤ) + 2 ≤ intMax
        · have hpart : ¬ Intact (r.payload.take k') := fun hi => hclean ⟨hn, hfit, hi⟩
          rw [hown] at hflen hfound hoff
          obtain ⟨i, hi, hin, hne⟩ := exists_differ r hfit hpart hflen hfound hoff
          rw [← hown, hclen] at hflen
          rw [memuncachedSet_store henv h.table r hn (by omega)]
          exact payloadLoop_spoiled h.table (r.loop_spoiled hi hin hne)
        · exact memuncachedSet_overflow env h.table r (by omega) found
      have hrun := resume_spoiled { h with log := log } hspoiled
      rw [← hset] at hrun
      rcases serve_invariant (step_spoiled env) (s := (h.dispatch env rl k', _)) hrun n with
        ⟨hsame, -⟩ | ⟨e, more', hsame, he⟩
      · rw [hsame] at hfar
        have hlen := hfar.length_le
        simp only [hlogd, List.length_append, List.length_cons, List.length_nil] at hlen
        omega
      · rw [hsame, hlogd, List.append_assoc, List.prefix_append_right_inj] at hfar
        simp only [List.cons_append, List.cons_prefix_cons, List.nil_append] at hfar
        exact he _ hfar.2.1.symm
    · -- bytes of a later request came along
      obtain ⟨more', hmore⟩ := resume_log { h with log := log }
        (memuncachedSet env h.table r.key r.type r.length found r.overwrite)
      rw [← hset] at hmore
      have hat : (serve env m (h, { segments := segs, ending := ending })).1.log =
          (h.dispatch env rl k').log := by
        rw [hserve]
      have hfirst := serve_log_first
        (hat.trans (hmore.symm.trans (List.append_cons _ _ _).symm)) hlog
      injection hfirst with hreceived
      have hlen := congrArg List.length hreceived
      rw [List.length_append, List.length_append, hclen, List.length_take, r.length_body] at hlen
      omega

end Memuncached.Server
