import Memuncached.Client.Response

/-!
# The pointers of the client's decoder

`memuncached_recv` (`libmemuncached.c`, lines 17-151) keeps three pointers into
the buffer it grows: `line_start`, `response.description` and `response.body`.
When `realloc` moves the block, the last two are carried over, set or not, and
`line_start` is not.

* `KeepsPointers`: at every point of a call each pointer is unset or at its
  field in the current block, and the scans read what has arrived.
* `keepsPointers_iff`: this is so exactly if no growth moves the block.
-/

namespace Memuncached.Client

open Segments Server

/-! ## Pointers into the current block -/

/-- NULL, or at offset `off` of the block. -/
def Pointer.UnsetOrAt (block off : ℕ) (p : Pointer) : Prop := p = .null ∨ p = .into block off

/-- `response.description` denotes what follows CODE and a blank,
    `response.body` what follows the header. -/
structure FieldsInBlock (r : Response) (client : MemuncachedClient) : Prop where
  description : client.response.description.UnsetOrAt client.block 4
  body : client.response.body.UnsetOrAt client.block (headerLen r)

/-- The offsets a scan takes (lines 41-42 and 69-70) when it meets no newline:
    from `line_start` up to `itr_end`; `none` when `line_start` is not in the
    current block. -/
def RecvLoop.scanned (l : RecvLoop) : Option (List ℕ) :=
  (l.client.offset l.lineStart).map fun off => List.range' off (l.totalSize - off)

/-- The three pointers are unset or at their fields, `line_start` at the first
    line that is not parsed, and a scan stays in the bytes that have arrived. -/
structure PointersInBlock (r : Response) (l : RecvLoop) : Prop where
  lineStart : l.lineStart.UnsetOrAt l.client.block (parsedLen r l.lineNumber)
  fields : FieldsInBlock r l.client
  scans : l.lineNumber < 2 → ∃ offs, l.scanned = some offs ∧
    ∀ i ∈ offs, i < l.totalSize ∧ i < l.client.buffer.length

/-- The local variables behind a `recv` of `bytes`, behind the first line's
    parser and behind the second's. -/
def RecvLoop.points (l : RecvLoop) (bytes : List Byte) : List RecvLoop :=
  l.received bytes :: ((l.received bytes).statusLine.toList ++
    ((l.received bytes).statusLine.bind RecvLoop.lengthLine).toList)

/-- The pointers at a `recv`, in the iteration that follows it, and behind the
    return; a faulted run has no pointers. -/
def PointersAt (r : Response) : RecvState × Socket → Prop
  | (.loop l, sock) => PointersInBlock r l ∧ ∀ bytes sock',
      sock.recv (l.client.bufferSize - l.totalSize) = (.data bytes, sock') →
        ∀ p ∈ l.points bytes, PointersInBlock r p
  | (.returned _ client, _) => FieldsInBlock r client
  | (.fault, _) => True

/-- Throughout the call the pointers survive the growths of the buffer. -/
def KeepsPointers (heap : Heap) (r : Response) (client : MemuncachedClient) (sock : Socket) :
    Prop := ∀ n, PointersAt r (memuncachedRecv heap client sock n)

/-- No growth that the call comes to moves the block. Growth `k` is the one at
    `size * 2 ^ k` bytes: the response goes on there, the doubled size is an
    `int`, and `realloc` has granted the growths before. -/
def NeverMoved (heap : Heap) (r : Response) (size start : ℕ) : Prop :=
  ∀ k, size * 2 ^ k < r.encode.length → 2 * ((size * 2 ^ k : ℕ) : ℤ) ≤ intMax →
    (∀ i < k, heap.realloc (start + i) ≠ .null) → heap.realloc (start + k) ≠ .moved

/-! ## The growths to come -/

section NeverMoved

variable {heap : Heap} {r : Response} {size start : ℕ}

theorem le_mul_two_pow (size k : ℕ) : size ≤ size * 2 ^ k :=
  Nat.le_mul_of_pos_right size (Nat.two_pow_pos k)

theorem neverMoved_of_le (h : r.encode.length ≤ size) : NeverMoved heap r size start := by
  intro k hk
  have hle := le_mul_two_pow size k
  omega

theorem neverMoved_of_overflow (h : intMax < 2 * (size : ℤ)) : NeverMoved heap r size start := by
  intro k _ hmax
  have hle := le_mul_two_pow size k
  omega

theorem neverMoved_of_null (h : heap.realloc start = .null) : NeverMoved heap r size start := by
  intro k _ _ hgranted
  rcases Nat.eq_zero_or_pos k with rfl | hk
  · rw [Nat.add_zero, h]
    decide
  · exact absurd h (hgranted 0 hk)

theorem not_neverMoved (hlt : size < r.encode.length) (hmax : 2 * (size : ℤ) ≤ intMax)
    (h : heap.realloc start = .moved) : ¬ NeverMoved heap r size start := by
  intro hnever
  exact hnever 0 (by rwa [pow_zero, mul_one]) (by rwa [pow_zero, mul_one])
    (fun i hi => absurd hi (Nat.not_lt_zero i)) h

/-- A growth in place leaves the growths behind it. -/
theorem neverMoved_double (h : heap.realloc start = .inPlace) :
    NeverMoved heap r (2 * size) (start + 1) ↔ NeverMoved heap r size start := by
  have hsize : ∀ k, 2 * size * 2 ^ k = size * 2 ^ (k + 1) := fun k => by ring
  have hstart : ∀ k, start + 1 + k = start + (k + 1) := fun k => by omega
  constructor
  · intro hnever k hlt hmax hgranted
    match k with
    | 0 =>
      rw [Nat.add_zero, h]
      decide
    | k + 1 =>
      rw [← hsize] at hlt hmax
      rw [← hstart]
      refine hnever k hlt hmax fun i hi => ?_
      rw [hstart]
      exact hgranted (i + 1) (by omega)
  · intro hnever k hlt hmax hgranted
    rw [hsize] at hlt hmax
    rw [hstart]
    refine hnever (k + 1) hlt hmax fun i hi => ?_
    match i with
    | 0 =>
      rw [Nat.add_zero, h]
      decide
    | i + 1 =>
      rw [← hstart]
      exact hgranted i (by omega)

end NeverMoved

/-! ## The pointers between the lines -/

/-- What is not parsed is unset, and `line_start` ends up at the body. -/
structure Tracks (l : RecvLoop) : Prop where
  lineNumber : l.lineNumber ≤ 2
  description : l.lineNumber = 0 → l.client.response.description = .null
  body : l.lineNumber < 2 → l.client.response.body = .null
  lineStart : l.lineNumber = 2 → l.lineStart = l.client.response.body

section Lines

variable {heap : Heap} {r : Response} {m k : ℕ} {l l' : RecvLoop}

theorem offset_eq_some {client : MemuncachedClient} {p : Pointer} {off : ℕ}
    (h : client.offset p = some off) : p = .into client.block off := by
  cases p with
  | null => simp [MemuncachedClient.offset] at h
  | wild => simp [MemuncachedClient.offset] at h
  | into block off' =>
    simp only [MemuncachedClient.offset] at h
    split_ifs at h with hblock
    simp only [Option.some.injEq] at h
    rw [hblock, h]

/-- `line_start` is at the first line that is not parsed. -/
theorem Holds.lineStart_eq (h : Holds r m k l) (ht : Tracks l) :
    l.lineStart = .into l.client.block (parsedLen r l.lineNumber) := by
  have hnumber := h.lineNumber
  subst hnumber
  rcases Nat.lt_or_eq_of_le ht.lineNumber with hlt | htwo
  · exact offset_eq_some (h.lineStart hlt)
  · obtain ⟨-, hbody, -⟩ := h.header htwo.ge
    rw [ht.lineStart htwo, hbody, htwo]
    rfl

theorem Holds.pointersInBlock (h : Holds r m k l) (ht : Tracks l)
    (hfit : m ≤ l.client.buffer.length) : PointersInBlock r l := by
  have hstart := h.lineStart_eq ht
  have hnumber := h.lineNumber
  subst hnumber
  have hparsed := h.parsed_le
  have htotal := h.totalSize
  constructor
  case lineStart => exact Or.inr hstart
  case fields =>
    constructor
    · rcases Nat.eq_zero_or_pos l.lineNumber with hzero | hpos
      · exact Or.inl (ht.description hzero)
      · exact Or.inr (h.status hpos).2
    · rcases Nat.lt_or_ge l.lineNumber 2 with hlt | htwo
      · exact Or.inl (ht.body hlt)
      · exact Or.inr (h.header htwo).2.1
  case scans =>
    intro hlt
    refine ⟨_, by rw [RecvLoop.scanned, h.lineStart hlt]; rfl, fun i hi => ?_⟩
    have hi' := List.mem_range'_1.mp hi
    omega

/-! ## The parsers keep what is unset -/

theorem Tracks.received (h : Tracks l) (bytes : List Byte) : Tracks (l.received bytes) :=
  ⟨h.lineNumber, h.description, h.body, h.lineStart⟩

theorem Tracks.payload (h : Tracks l) : Tracks l.payload := by
  unfold RecvLoop.payload
  split_ifs
  · exact ⟨h.lineNumber, h.description, h.body, h.lineStart⟩
  · exact h

theorem Tracks.zero (hnumber : l.lineNumber = 0)
    (hdescription : l.client.response.description = .null)
    (hbody : l.client.response.body = .null) : Tracks l :=
  ⟨by omega, fun _ => hdescription, fun _ => hbody, fun h2 => by omega⟩

theorem Tracks.one (hnumber : l.lineNumber = 1) (hbody : l.client.response.body = .null) :
    Tracks l :=
  ⟨by omega, fun h0 => by omega, fun _ => hbody, fun h2 => by omega⟩

theorem Tracks.two (hnumber : l.lineNumber = 2) (hstart : l.lineStart = l.client.response.body) :
    Tracks l :=
  ⟨by omega, fun h0 => by omega, fun hlt => by omega, fun _ => hstart⟩

theorem Tracks.statusLine (h : Tracks l) (hl : l.statusLine = some l') : Tracks l' := by
  by_cases hzero : l.lineNumber = 0
  · have hbody := h.body (by omega)
    simp only [RecvLoop.statusLine, if_pos hzero, Option.bind_eq_bind,
      Option.bind_eq_some_iff] at hl
    obtain ⟨off, -, hl⟩ := hl
    split at hl
    · obtain rfl := Option.some.inj hl
      exact h
    · split_ifs at hl
      obtain ⟨code, -, hl⟩ := Option.bind_eq_some_iff.mp hl
      obtain rfl := Option.some.inj hl
      exact .one rfl hbody
  · rw [statusLine_done hzero] at hl
    obtain rfl := Option.some.inj hl
    exact h

theorem Tracks.lengthLine (h : Tracks l) (hl : l.lengthLine = some l') : Tracks l' := by
  by_cases hone : l.lineNumber = 1
  · simp only [RecvLoop.lengthLine, if_pos hone, Option.bind_eq_bind,
      Option.bind_eq_some_iff] at hl
    obtain ⟨off, -, hl⟩ := hl
    split at hl
    · obtain rfl := Option.some.inj hl
      exact h
    · split_ifs at hl
      obtain ⟨bodyType, -, hl⟩ := Option.bind_eq_some_iff.mp hl
      obtain ⟨bodySize, -, hl⟩ := Option.bind_eq_some_iff.mp hl
      obtain rfl := Option.some.inj hl
      exact .two rfl rfl
  · rw [lengthLine_done hone] at hl
    obtain rfl := Option.some.inj hl
    exact h

/-- The first line's parser on a prefix of the response. -/
theorem Holds.statusLine (hr : r.WellFormed) (h : Holds r m k l) :
    ∃ l' k', l.statusLine = some l' ∧ Holds r m k' l' ∧ SameBlock l.client l'.client := by
  by_cases hzero : l.lineNumber = 0
  · have hk : k = 0 := h.lineNumber ▸ hzero
    subst hk
    rcases Nat.lt_or_ge m (statusLen r) with hlt | hle
    · exact ⟨l, 0, statusLine_short hr h hlt, h, SameBlock.refl _⟩
    · obtain ⟨l', hl', hholds, hsame, -⟩ := statusLine_full hr h hle
      exact ⟨l', 1, hl', hholds, hsame⟩
  · exact ⟨l, k, statusLine_done hzero, h, SameBlock.refl _⟩

/-- The second line's parser on a prefix of the response. -/
theorem Holds.lengthLine (hr : Sendable r) (h : Holds r m k l) :
    ∃ l' k', l.lengthLine = some l' ∧ Holds r m k' l' ∧ SameBlock l.client l'.client := by
  by_cases hone : l.lineNumber = 1
  · have hk : k = 1 := h.lineNumber ▸ hone
    subst hk
    rcases Nat.lt_or_ge m (headerLen r) with hlt | hle
    · exact ⟨l, 1, lengthLine_short h hlt, h, SameBlock.refl _⟩
    · obtain ⟨l', hl', hholds, hsame, -⟩ := lengthLine_full hr h hle
      exact ⟨l', 2, hl', hholds, hsame⟩
  · exact ⟨l, k, lengthLine_done hone, h, SameBlock.refl _⟩

/-! ## One iteration -/

/-- The pointers are in the block wherever the iteration has come to. -/
theorem AtBytes.points (hr : Sendable r) (h : AtBytes r m l) (ht : Tracks l) {bytes : List Byte}
    (hbytes : bytes = (r.encode.drop m).take bytes.length)
    (hfit : m + bytes.length ≤ l.client.bufferSize)
    (hle : m + bytes.length ≤ r.encode.length) :
    ∀ p ∈ l.points bytes, PointersInBlock r p := by
  rw [← h.bufferSize] at hfit
  have hreceived := h.holds.received hbytes hfit hle
  have hlength : (l.received bytes).client.buffer.length = l.client.buffer.length :=
    length_store _ _ _
  have ht₀ := ht.received bytes
  obtain ⟨l₁, k₁, hstatus, hholds₁, hsame₁⟩ := hreceived.statusLine hr.wellFormed
  obtain ⟨l₂, k₂, hlengthLine, hholds₂, hsame₂⟩ := hholds₁.lengthLine hr
  have ht₁ := ht₀.statusLine hstatus
  have ht₂ := ht₁.lengthLine hlengthLine
  intro p hp
  rw [RecvLoop.points, hstatus, Option.bind_some, hlengthLine] at hp
  simp only [Option.toList_some, List.cons_append, List.nil_append, List.mem_cons,
    List.not_mem_nil, or_false] at hp
  rcases hp with rfl | rfl | rfl
  · exact hreceived.pointersInBlock ht₀ (by omega)
  · exact hholds₁.pointersInBlock ht₁ (by rw [hsame₁.length]; omega)
  · exact hholds₂.pointersInBlock ht₂ (by rw [hsame₂.length, hsame₁.length]; omega)

/-- A block that grows in place keeps every pointer. -/
theorem Tracks.grow (h : Tracks l) (hresult : heap.realloc l.client.reallocs = .inPlace)
    (hl : l.grow heap = .loop l') : Tracks l' := by
  have hrebase : ∀ p : Pointer, p.rebase l.client.block l.client.block = p := fun p => if_pos rfl
  unfold RecvLoop.grow at hl
  rw [hresult] at hl
  simp only [reduceCtorEq, if_false, hrebase] at hl
  split_ifs at hl
  · obtain rfl := RecvState.loop.inj hl
    exact ⟨h.lineNumber, h.description, h.body, h.lineStart⟩
  · obtain rfl := RecvState.loop.inj hl
    exact h

/-- A growth that is not granted leaves the block and what points to it. -/
theorem grow_null (hlt : l.client.bufferSize < l.totalSize + 1)
    (hmax : 2 * (l.client.bufferSize : ℤ) ≤ intMax) (hfields : FieldsInBlock r l.client)
    (hresult : heap.realloc l.client.reallocs = .null) :
    ∃ client, l.grow heap = .returned false client ∧ FieldsInBlock r client := by
  refine ⟨{ l.client with bufferSize := 2 * l.client.bufferSize
                          reallocs := l.client.reallocs + 1 }, ?_, ?_⟩
  · rw [RecvLoop.grow, if_pos hlt, if_neg (by omega), hresult]
  · exact ⟨hfields.description, hfields.body⟩

/-- A block that moves leaves `line_start` in the old one. -/
theorem grow_moved (hlt : l.client.bufferSize < l.totalSize + 1)
    (hmax : 2 * (l.client.bufferSize : ℤ) ≤ intMax) {off : ℕ}
    (hstart : l.lineStart = .into l.client.block off)
    (hresult : heap.realloc l.client.reallocs = .moved) :
    ∃ l', l.grow heap = .loop l' ∧ ¬ PointersInBlock r l' := by
  refine ⟨_, by rw [RecvLoop.grow, if_pos hlt, if_neg (by omega), hresult], fun hin => ?_⟩
  have hold : l.lineStart.UnsetOrAt (l.client.block + 1) (parsedLen r l.lineNumber) := hin.lineStart
  rw [hstart] at hold
  rcases hold with hnull | hinto
  · exact absurd hnull (by simp)
  · simp at hinto

/-- What a growth of the full buffer comes to. -/
theorem grow_pointers (h : AtBytes r m l) (ht : Tracks l) (hm : m = l.client.bufferSize)
    (hlt : m < r.encode.length) :
    (l.grow heap = .fault ∧ NeverMoved heap r l.client.bufferSize l.client.reallocs) ∨
      (∃ client, l.grow heap = .returned false client ∧ FieldsInBlock r client ∧
        NeverMoved heap r l.client.bufferSize l.client.reallocs) ∨
      (∃ l', l.grow heap = .loop l' ∧ AtBytes r m l' ∧ Tracks l' ∧
        l'.client.bufferSize = 2 * m ∧
        (NeverMoved heap r l'.client.bufferSize l'.client.reallocs ↔
          NeverMoved heap r l.client.bufferSize l.client.reallocs)) ∨
      ∃ l', l.grow heap = .loop l' ∧ ¬ PointersInBlock r l' ∧
        ¬ NeverMoved heap r l.client.bufferSize l.client.reallocs := by
  have hfull : l.client.bufferSize < l.totalSize + 1 := by
    rw [h.holds.totalSize]
    omega
  by_cases hmax : intMax < 2 * (l.client.bufferSize : ℤ)
  · left
    refine ⟨?_, neverMoved_of_overflow hmax⟩
    rw [RecvLoop.grow, if_pos hfull, if_pos hmax]
  · right
    cases hresult : heap.realloc l.client.reallocs with
    | null =>
      left
      have hfields := (h.holds.pointersInBlock ht (by rw [h.bufferSize, hm])).fields
      obtain ⟨client, hgrow, hfields'⟩ := grow_null hfull (by omega) hfields hresult
      exact ⟨client, hgrow, hfields', neverMoved_of_null hresult⟩
    | inPlace =>
      right; left
      have hok : GrowthOk heap r m l.client.reallocs := by
        refine ⟨?_, by rw [hm]; omega, fun _ => ?_⟩
        · rw [hresult]; decide
        · rw [hresult]; decide
      obtain ⟨l', hgrow, hat, hsize, hreallocs⟩ := grow_full h hm hok
      refine ⟨l', hgrow, hat, ht.grow hresult hgrow, hsize, ?_⟩
      rw [hsize, hreallocs, hm]
      exact neverMoved_double hresult
    | moved =>
      right; right
      obtain ⟨l', hgrow, hout⟩ :=
        @grow_moved heap r l hfull (by omega) _ (h.holds.lineStart_eq ht) hresult
      exact ⟨l', hgrow, hout, not_neverMoved (by rwa [← hm]) (by omega) hresult⟩

end Lines

/-! ## The call -/

section Run

variable {heap : Heap} {r : Response}

/-- The states from `s` on are `s` and those from the next one on. -/
theorem forall_iterate {P : RecvState × Socket → Prop} {s : RecvState × Socket} :
    (∀ n, P ((recvStep heap)^[n] s)) ↔ P s ∧ ∀ n, P ((recvStep heap)^[n] (recvStep heap s)) := by
  constructor
  · intro h
    exact ⟨h 0, fun n => h (n + 1)⟩
  · rintro ⟨h0, h⟩ n
    cases n with
    | zero => exact h0
    | succ n => exact h n

/-- From `m` bytes on. -/
theorem recv_loop_pointers (hr : Sendable r) (ending : StreamEnd) :
    ∀ d m l segs, r.encode.length - m = d → m < r.encode.length → AtBytes r m l → Tracks l →
      m < l.client.bufferSize → Cut segs (r.encode.drop m) →
      ((∀ n, PointersAt r ((recvStep heap)^[n] (.loop l, { segments := segs, ending := ending }))) ↔
        NeverMoved heap r l.client.bufferSize l.client.reallocs) := by
  intro d
  induction d using Nat.strong_induction_on with
  | _ d ih =>
    intro m l segs hd hm h ht hroom hcut
    rw [← @List.take_length _ r.encode] at hcut
    obtain ⟨n, bytes, rfl, hbytes, hpos, hle, hfit, hcut', hrecv⟩ :=
      recv_reads h hroom (le_refl _) hm hcut ending
    rw [List.take_length] at hcut'
    obtain ⟨l₀, hparse, hat, hsame⟩ := received_parses hr h hbytes hfit hle
    have hpoints := h.points hr ht hbytes hfit hle
    have hnow : PointersAt r (.loop l, { segments := segs, ending := ending }) := by
      refine ⟨h.holds.pointersInBlock ht (by rw [h.bufferSize]; omega), fun bytes' sock' hdata => ?_⟩
      rw [hrecv] at hdata
      simp only [Prod.mk.injEq, RecvResult.data.injEq] at hdata
      rw [← hdata.1]
      exact hpoints
    -- what the next iteration starts from, or the end
    have ht₀ : Tracks l₀.payload := by
      obtain ⟨l₁, hstatus, hlength⟩ := Option.bind_eq_some_iff.mp hparse
      exact (((ht.received bytes).statusLine hstatus).lengthLine hlength).payload
    have hsize : l₀.payload.client.bufferSize = l.client.bufferSize := by
      rw [payload_client, hsame.bufferSize]
    have hreallocs : l₀.payload.client.reallocs = l.client.reallocs := by
      rw [payload_client, hsame.reallocs]
    have hbody := body_parses hr heap h hfit hparse hat
    have hstep : recvStep heap (.loop l, { segments := segs, ending := ending }) =
        (l.body heap bytes, { segments := dropBytes bytes.length segs, ending := ending }) := by
      rw [recvStep, hrecv]
    have hlast : FieldsInBlock r l₀.payload.client :=
      (hat.holds.pointersInBlock ht₀ (by rw [hat.bufferSize, hsize]; exact hfit)).fields
    rw [forall_iterate, hstep, hbody, and_iff_right hnow]
    by_cases hend : m + bytes.length = r.encode.length
    · rw [if_pos hend]
      refine iff_of_true (fun n => ?_) (neverMoved_of_le (by omega))
      rw [recvStep_returned]
      exact hlast
    · rw [if_neg hend]
      rcases Nat.lt_or_ge (m + bytes.length) l.client.bufferSize with hroom' | hfull
      · rw [grow_room heap hat (by omega), ← hsize, ← hreallocs]
        exact ih _ (by omega) _ _ _ rfl (by omega) hat ht₀ (by omega) hcut'
      · rw [← hsize, ← hreallocs]
        rcases @grow_pointers heap r _ _ hat ht₀ (by omega) (by omega) with
          ⟨hgrow, hnever⟩ | ⟨client, hgrow, hfields, hnever⟩ |
          ⟨l', hgrow, hat', ht', hsize', hiff⟩ | ⟨l', hgrow, hout, hmoved⟩
        · rw [hgrow]
          refine iff_of_true (fun n => ?_) hnever
          rw [recvStep_fault]
          trivial
        · rw [hgrow]
          refine iff_of_true (fun n => ?_) hnever
          rw [recvStep_returned]
          exact hfields
        · rw [hgrow, ← hiff]
          exact ih _ (by omega) _ _ _ rfl (by omega) hat' ht' (by omega) hcut'
        · rw [hgrow]
          exact iff_of_false (fun hall => hout (hall 0).1) hmoved

/-- The pointers of `memuncached_recv` survive every growth of its buffer, for
    a response in any segments, exactly if no growth it comes to moves the
    block. -/
theorem keepsPointers_iff (hr : Sendable r) {client : MemuncachedClient}
    (hbuffer : client.buffer.length = client.bufferSize) (hpos : 0 < client.bufferSize)
    {segs : List (List Byte)} (hcut : Cut segs r.encode) (ending : StreamEnd) :
    KeepsPointers heap r client { segments := segs, ending := ending } ↔
      NeverMoved heap r client.bufferSize client.reallocs := by
  obtain ⟨l, hstart, hat, hsame⟩ := recvStart_loop r hbuffer
  have hlen := length_encode r
  have ht : Tracks l := by
    obtain rfl := RecvState.loop.inj hstart
    exact .zero rfl rfl rfl
  rw [← hsame.bufferSize, ← hsame.reallocs]
  unfold KeepsPointers memuncachedRecv
  rw [hstart]
  exact recv_loop_pointers hr ending _ 0 l segs rfl (by omega) hat ht
    (by rwa [hsame.bufferSize]) hcut

end Run

theorem keepsPointers_twoLines :
    KeepsPointers Heap.growing twoLines (clientOf 1)
      { segments := [twoLines.encode.take 5, twoLines.encode.drop 5], ending := .idle } :=
  (keepsPointers_iff ⟨twoLines_wellFormed, by decide, by decide⟩ rfl (by decide)
    ⟨by decide, by decide⟩ .idle).mpr fun _ _ _ _ => ReallocResult.noConfusion

/-- The buffer of 10 bytes moves in the second line, and `line_start` stays in
    the old block. -/
theorem not_keepsPointers_moving :
    ¬ KeepsPointers Heap.moving twoLines (clientOf 10)
      { segments := [twoLines.encode], ending := .idle } := by
  intro h
  have hloop : ∃ l sock, memuncachedRecv Heap.moving (clientOf 10)
      { segments := [twoLines.encode], ending := .idle } 1 = (.loop l, sock) ∧
        l.lineStart = .into 0 8 ∧ l.client.block = 1 := ⟨_, _, rfl, rfl, rfl⟩
  obtain ⟨l, sock, hl, hstart, hblock⟩ := hloop
  have hpointers := h 1
  rw [hl] at hpointers
  have hin := hpointers.1.lineStart
  rw [hstart, hblock] at hin
  rcases hin with hnull | hinto
  · exact absurd hnull (by decide)
  · simp at hinto

end Memuncached.Client
