import Memuncached.Client.Lines

/-!
# One iteration of the client's decoder

The body of the loop of `memuncached_recv` on a response of the server. The
buffer doubles when it is full, hence when `bufferSize * 2 ^ k` bytes have been
read, however they arrived.

* `AtBytes r m l`: the first `m` bytes of the response have been read and
  handled, `recvStep_reads` the step to more bytes.
* `grow_full`, `grow_harmful`: a growth keeps `AtBytes` when it is sound
  (`GrowthOk`), and otherwise ends the call or leaves `line_start` stale.
-/

namespace Memuncached.Client

open Segments Server

/-- The number of lines that are complete in `m` bytes. -/
def linesAt (r : Response) (m : ℕ) : ℕ :=
  if m < statusLen r then 0 else if m < headerLen r then 1 else 2

/-- `m` bytes have been read and handled. -/
structure AtBytes (r : Response) (m : ℕ) (l : RecvLoop) : Prop where
  holds : Holds r m (linesAt r m) l
  payloadReadSize : l.payloadReadSize = m - headerLen r
  bufferSize : l.client.buffer.length = l.client.bufferSize

section Iteration

variable {r : Response} {m k : ℕ} {l : RecvLoop}

theorem linesAt_zero (h : m < statusLen r) : linesAt r m = 0 := if_pos h

theorem linesAt_one (h0 : statusLen r ≤ m) (h1 : m < headerLen r) : linesAt r m = 1 := by
  rw [linesAt, if_neg (by omega), if_pos h1]

theorem linesAt_two (h : headerLen r ≤ m) : linesAt r m = 2 := by
  have hle : statusLen r ≤ headerLen r := Nat.le_add_right _ _
  rw [linesAt, if_neg (by omega), if_neg (by omega)]

theorem linesAt_le (r : Response) (m : ℕ) : linesAt r m ≤ 2 := by
  unfold linesAt
  split_ifs <;> omega

theorem linesAt_eq_two_iff (r : Response) (m : ℕ) : linesAt r m = 2 ↔ headerLen r ≤ m := by
  refine ⟨fun h => ?_, linesAt_two⟩
  by_contra hm
  unfold linesAt at h
  split_ifs at h
  · omega
  · omega

/-! ## One iteration -/

theorem statusLine_done (h : l.lineNumber ≠ 0) : l.statusLine = some l := by
  rw [RecvLoop.statusLine, if_neg h]
  rfl

theorem lengthLine_done (h : l.lineNumber ≠ 1) : l.lengthLine = some l := by
  rw [RecvLoop.lengthLine, if_neg h]
  rfl

/-- The local variables behind a `recv` that returned `bytes` (lines 23-36). -/
def RecvLoop.received (l : RecvLoop) (bytes : List Byte) : RecvLoop :=
  { l with
    client := { l.client with buffer := store l.client.buffer l.totalSize bytes }
    readSize := bytes.length
    totalSize := l.totalSize + bytes.length }

/-- Received bytes extend what is behind the parsed lines. -/
theorem Holds.received (h : Holds r m k l) {bytes : List Byte}
    (hbytes : bytes = (r.encode.drop m).take bytes.length)
    (hfit : m + bytes.length ≤ l.client.buffer.length)
    (hle : m + bytes.length ≤ r.encode.length) :
    Holds r (m + bytes.length) k (l.received bytes) := by
  obtain ⟨tail, htail⟩ := h.buffer
  have hparsed := h.parsed_le
  have hunparsed := length_unparsed r k
  have hlen := congrArg List.length htail
  simp only [List.length_append, List.length_take, length_parsed] at hlen
  have htake : (unparsed r k).take (m + bytes.length - parsedLen r k) =
      (unparsed r k).take (m - parsedLen r k) ++ bytes := by
    have hadd : m + bytes.length - parsedLen r k = (m - parsedLen r k) + bytes.length := by omega
    rw [hadd, List.take_add, ← drop_encode r hparsed, ← hbytes]
  have hstore : store l.client.buffer l.totalSize bytes =
      parsed r k ++ ((unparsed r k).take (m + bytes.length - parsedLen r k) ++
        tail.drop bytes.length) := by
    rw [htail, ← List.append_assoc, store_append ?_ (by omega), htake]
    · simp only [List.append_assoc]
    · rw [List.length_append, List.length_take, length_parsed, h.totalSize]
      omega
  constructor
  case lineNumber => exact h.lineNumber
  case totalSize => exact congrArg (· + bytes.length) h.totalSize
  case parsed_le => omega
  case buffer => exact ⟨_, hstore⟩
  case le_encode => exact hle
  case lineStart => exact h.lineStart
  case untyped => exact h.untyped
  case status => exact h.status
  case header => exact h.header

theorem Holds.payload (h : Holds r m k l) : Holds r m k l.payload := by
  unfold RecvLoop.payload
  split_ifs
  · exact ⟨h.lineNumber, h.totalSize, h.parsed_le, h.buffer, h.le_encode, h.lineStart, h.untyped,
      h.status, h.header⟩
  · exact h

theorem payload_client (l : RecvLoop) : l.payload.client = l.client := by
  unfold RecvLoop.payload
  split_ifs <;> rfl

/-- The second line's parser, when the first line has been parsed. -/
theorem lengthLine_parses (hr : Sendable r) (h : Holds r m 1 l) (hpayload : l.payloadReadSize = 0) :
    ∃ l', l.lengthLine = some l' ∧ Holds r m (linesAt r m) l' ∧ SameBlock l.client l'.client ∧
      l'.payload.payloadReadSize = m - headerLen r := by
  by_cases hm : m < headerLen r
  · refine ⟨l, lengthLine_short h hm, ?_, SameBlock.refl _, ?_⟩
    · rwa [linesAt_one h.parsed_le hm]
    · rw [RecvLoop.payload, if_neg (by rw [h.lineNumber]; decide), hpayload]
      omega
  · obtain ⟨l', hl', hholds, hsame, hread, hpay⟩ := lengthLine_full hr h (by omega)
    refine ⟨l', hl', ?_, hsame, ?_⟩
    · rwa [linesAt_two (by omega)]
    · rw [RecvLoop.payload, if_pos hholds.lineNumber]
      show l'.payloadReadSize + l'.readSize = _
      rw [hpay, hpayload, hread, Nat.zero_add]

/-- Both parsers, when the first `k` lines have been parsed. -/
theorem lines_parse (hr : Sendable r) (h : Holds r m k l) (hk : k ≤ 2)
    (hbefore : k < 2 → l.payloadReadSize = 0)
    (hbehind : k = 2 → l.payloadReadSize + l.readSize = m - headerLen r) :
    ∃ l', l.statusLine.bind RecvLoop.lengthLine = some l' ∧ Holds r m (linesAt r m) l' ∧
      SameBlock l.client l'.client ∧ l'.payload.payloadReadSize = m - headerLen r := by
  match k with
  | 0 =>
    have hpayload := hbefore (by decide)
    by_cases hm : m < statusLen r
    · have hle : statusLen r ≤ headerLen r := Nat.le_add_right _ _
      refine ⟨l, ?_, ?_, SameBlock.refl _, ?_⟩
      · rw [statusLine_short hr.wellFormed h hm, Option.bind_some,
          lengthLine_done (by rw [h.lineNumber]; decide)]
      · rwa [linesAt_zero hm]
      · rw [RecvLoop.payload, if_neg (by rw [h.lineNumber]; decide), hpayload]
        omega
    · obtain ⟨l₁, hl₁, hholds, hsame, -, hpay⟩ := statusLine_full hr.wellFormed h (by omega)
      obtain ⟨l', hl', hholds', hsame', hpay'⟩ := lengthLine_parses hr hholds (by rw [hpay, hpayload])
      refine ⟨l', ?_, hholds', hsame.trans hsame', hpay'⟩
      rw [hl₁, Option.bind_some, hl']
  | 1 =>
    obtain ⟨l', hl', hholds', hsame', hpay'⟩ := lengthLine_parses hr h (hbefore (by decide))
    refine ⟨l', ?_, hholds', hsame', hpay'⟩
    rw [statusLine_done (by rw [h.lineNumber]; decide), Option.bind_some, hl']
  | 2 =>
    refine ⟨l, ?_, ?_, SameBlock.refl _, ?_⟩
    · rw [statusLine_done (by rw [h.lineNumber]; decide), Option.bind_some,
        lengthLine_done (by rw [h.lineNumber]; decide)]
    · rwa [linesAt_two h.parsed_le]
    · rw [RecvLoop.payload, if_pos h.lineNumber]
      exact hbehind rfl

/-- The loop is left when the whole response has been read. -/
theorem complete_iff (hr : Sendable r) (h : AtBytes r m l) :
    l.complete = true ↔ m = r.encode.length := by
  have hlen := length_encode r
  have hmax := hr.length
  have hle := h.holds.le_encode
  unfold intMax at hmax
  unfold RecvLoop.complete
  rw [h.holds.lineNumber, h.payloadReadSize, Bool.and_eq_true, beq_iff_eq, decide_eq_true_eq]
  by_cases hm : m < headerLen r
  · refine iff_of_false ?_ (by omega)
    rintro ⟨htwo, -⟩
    rw [linesAt_eq_two_iff] at htwo
    omega
  · have htwo := @linesAt_two r m (by omega)
    have hholds := h.holds
    rw [htwo] at hholds
    rw [(hholds.header (le_refl 2)).1, Nat.mod_eq_of_lt (by omega)]
    constructor
    · rintro ⟨-, h3⟩
      omega
    · intro heq
      exact ⟨htwo, by omega⟩

/-- Both parsers behind a `recv` of the next bytes of the response. -/
theorem received_parses (hr : Sendable r) (h : AtBytes r m l) {bytes : List Byte}
    (hbytes : bytes = (r.encode.drop m).take bytes.length)
    (hfit : m + bytes.length ≤ l.client.bufferSize)
    (hle : m + bytes.length ≤ r.encode.length) :
    ∃ l', (l.received bytes).statusLine.bind RecvLoop.lengthLine = some l' ∧
      AtBytes r (m + bytes.length) l'.payload ∧ SameBlock l.client l'.client := by
  have hreceived := h.holds.received hbytes (by rw [h.bufferSize]; exact hfit) hle
  have htwo := linesAt_eq_two_iff r m
  have hpayload := h.payloadReadSize
  obtain ⟨l', hparse, hholds, hsame, hpay⟩ := lines_parse hr hreceived (linesAt_le r m)
    (fun hlt => by show l.payloadReadSize = 0; omega)
    (fun heq => by show l.payloadReadSize + bytes.length = _; have := htwo.mp heq; omega)
  have hsame' : SameBlock l.client l'.client :=
    ⟨hsame.block, hsame.bufferSize, hsame.reallocs, hsame.length.trans (length_store _ _ _)⟩
  refine ⟨l', hparse, ⟨hholds.payload, hpay, ?_⟩, hsame'⟩
  rw [payload_client, hsame'.length, hsame'.bufferSize, h.bufferSize]

/-- One iteration that receives the next bytes of the response. -/
theorem body_parses (hr : Sendable r) (heap : Heap) (h : AtBytes r m l) {bytes : List Byte}
    (hfit : m + bytes.length ≤ l.client.bufferSize) {l' : RecvLoop}
    (hparse : (l.received bytes).statusLine.bind RecvLoop.lengthLine = some l')
    (hat : AtBytes r (m + bytes.length) l'.payload) :
    l.body heap bytes =
      if m + bytes.length = r.encode.length then .returned true l'.payload.client
      else l'.payload.grow heap := by
  rw [RecvLoop.body, if_neg (by rw [h.bufferSize, h.holds.totalSize]; omega)]
  show (l.received bytes).handle heap = _
  unfold RecvLoop.handle
  simp only [hparse, complete_iff hr hat]

/-! ## Growth -/

/-- A growth of the buffer at `size` bytes that does no harm: it is granted, the
    doubled size is an `int`, and the block stays where it is as long as the
    header is incomplete. -/
def GrowthOk (heap : Heap) (r : Response) (size reallocs : ℕ) : Prop :=
  heap.realloc reallocs ≠ .null ∧ 2 * (size : ℤ) ≤ intMax ∧
    (size < headerLen r → heap.realloc reallocs ≠ .moved)

theorem growthOk_inPlace {heap : Heap} (hheap : ∀ i, heap.realloc i = .inPlace) (r : Response)
    {size : ℕ} (hsize : 2 * (size : ℤ) ≤ intMax) (reallocs : ℕ) : GrowthOk heap r size reallocs :=
  ⟨by rw [hheap]; decide, hsize, fun _ => by rw [hheap]; decide⟩

/-- The buffer and the fields of the response behind a growth. -/
theorem AtBytes.grown (h : AtBytes r m l) {new size reallocs : ℕ} {fresh : List Byte}
    (hblock : m < headerLen r → new = l.client.block)
    (hsize : (l.client.buffer ++ fresh).length = size) :
    AtBytes r m
      { l with
        client :=
          { block := new, buffer := l.client.buffer ++ fresh, bufferSize := size
            reallocs := reallocs
            response :=
              { l.client.response with
                description := l.client.response.description.rebase l.client.block new
                body := l.client.response.body.rebase l.client.block new } } } := by
  have hrebase : ∀ off, (Pointer.into l.client.block off).rebase l.client.block new =
      .into new off := by
    intro off
    unfold Pointer.rebase
    split_ifs with heq
    · rw [heq]
    · exact if_pos rfl
  obtain ⟨hholds, hpayload, hlen⟩ := h
  obtain ⟨tail, htail⟩ := hholds.buffer
  refine ⟨?_, hpayload, hsize⟩
  constructor
  case lineNumber => exact hholds.lineNumber
  case totalSize => exact hholds.totalSize
  case parsed_le => exact hholds.parsed_le
  case buffer =>
    refine ⟨tail ++ fresh, ?_⟩
    show l.client.buffer ++ fresh = _
    rw [htail, List.append_assoc, List.append_assoc]
  case le_encode => exact hholds.le_encode
  case lineStart =>
    intro hk
    have hnew := hblock (by
      have htwo := linesAt_eq_two_iff r m
      omega)
    subst hnew
    exact hholds.lineStart hk
  case untyped => exact hholds.untyped
  case status =>
    intro hk
    obtain ⟨hcode, hdescription⟩ := hholds.status hk
    refine ⟨hcode, ?_⟩
    show l.client.response.description.rebase l.client.block new = _
    rw [hdescription, hrebase]
  case header =>
    intro hk
    obtain ⟨hbodySize, hbody, htype⟩ := hholds.header hk
    refine ⟨hbodySize, ?_, htype⟩
    show l.client.response.body.rebase l.client.block new = _
    rw [hbody, hrebase]

theorem grow_room (heap : Heap) (h : AtBytes r m l) (hm : m < l.client.bufferSize) :
    l.grow heap = .loop l := by
  rw [RecvLoop.grow, if_neg (by rw [h.holds.totalSize]; omega)]

theorem grow_full {heap : Heap} (h : AtBytes r m l) (hm : m = l.client.bufferSize)
    (hok : GrowthOk heap r m l.client.reallocs) :
    ∃ l', l.grow heap = .loop l' ∧ AtBytes r m l' ∧ l'.client.bufferSize = 2 * m ∧
      l'.client.reallocs = l.client.reallocs + 1 := by
  obtain ⟨hnull, hmax, hmoved⟩ := hok
  have hlen := h.bufferSize
  rw [RecvLoop.grow, if_pos (by rw [h.holds.totalSize]; omega), if_neg (by rw [← hm]; omega)]
  have hfresh : ∀ fresh : ℕ → Byte, (l.client.buffer ++
      (List.range (2 * l.client.bufferSize - l.client.buffer.length)).map fresh).length =
        2 * l.client.bufferSize := by
    intro fresh
    rw [List.length_append, List.length_map, List.length_range]
    omega
  cases hresult : heap.realloc l.client.reallocs with
  | null => exact absurd hresult hnull
  | inPlace => exact ⟨_, rfl, h.grown (fun _ => rfl) (hfresh _), by rw [hm], rfl⟩
  | moved =>
    refine ⟨_, rfl, h.grown (fun hlt => absurd hresult (hmoved hlt)) (hfresh _), by rw [hm], rfl⟩

/-- `line_start` is needed and points into a block that has been given back. -/
structure Stale (l : RecvLoop) : Prop where
  lineNumber : l.lineNumber < 2
  lineStart : l.client.offset l.lineStart = none
  room : l.totalSize < l.client.bufferSize
  bufferSize : l.client.buffer.length = l.client.bufferSize

/-- A harmful growth ends the call, or leaves `line_start` behind. -/
theorem grow_harmful {heap : Heap} (h : AtBytes r m l) (hpos : 0 < m)
    (hm : m = l.client.bufferSize) (hbad : ¬ GrowthOk heap r m l.client.reallocs) :
    l.grow heap = .fault ∨ (∃ client, l.grow heap = .returned false client) ∨
      ∃ l', l.grow heap = .loop l' ∧ Stale l' := by
  have hlen := h.bufferSize
  by_cases hmax : intMax < 2 * (m : ℤ)
  · left
    rw [RecvLoop.grow, if_pos (by rw [h.holds.totalSize]; omega), if_pos (by rwa [← hm])]
  · right
    rw [RecvLoop.grow, if_pos (by rw [h.holds.totalSize]; omega), if_neg (by rwa [← hm])]
    cases hresult : heap.realloc l.client.reallocs with
    | null => exact Or.inl ⟨_, rfl⟩
    | inPlace =>
      refine absurd ⟨?_, by omega, ?_⟩ hbad
      · rw [hresult]; decide
      · intro _
        rw [hresult]; decide
    | moved =>
      have hheader : m < headerLen r := by
        by_contra hge
        refine hbad ⟨?_, by omega, fun hlt => absurd hlt hge⟩
        rw [hresult]; decide
      have htwo := linesAt_eq_two_iff r m
      have hle := linesAt_le r m
      have hlines : linesAt r m < 2 := by omega
      have hstart := h.holds.lineStart hlines
      refine Or.inr ⟨_, rfl, ?_, ?_, ?_, ?_⟩
      · show l.lineNumber < 2
        rw [h.holds.lineNumber]
        exact hlines
      · -- the old block is not the new one
        cases hp : l.lineStart with
        | null => rfl
        | wild => rfl
        | into block off =>
          rw [hp] at hstart
          simp only [MemuncachedClient.offset] at hstart ⊢
          split_ifs at hstart with hblock
          simp [hblock]
      · show l.totalSize < 2 * l.client.bufferSize
        rw [h.holds.totalSize]
        omega
      · simp only [List.length_append, List.length_map, List.length_range]
        omega

/-- The next byte that arrives is looked for behind the stale pointer. -/
theorem recvStep_stale {heap : Heap} (h : Stale l) {segs : List (List Byte)} {s : List Byte}
    (hcut : Cut segs s) (hs : s ≠ []) (ending : StreamEnd) :
    ∃ sock, recvStep heap (.loop l, { segments := segs, ending := ending }) = (.fault, sock) := by
  have hroom := h.room
  obtain ⟨n, -, hn, -, hrecv⟩ := @Socket.recv_data _ _ ending hcut hs _
    (show 0 < l.client.bufferSize - l.totalSize by omega)
  refine ⟨{ segments := dropBytes n segs, ending := ending }, ?_⟩
  have hfit : ¬ l.client.buffer.length < l.totalSize + (s.take n).length := by
    rw [h.bufferSize, List.length_take]
    omega
  have hparse : ∀ l' : RecvLoop, l'.lineNumber = l.lineNumber → l'.lineStart = l.lineStart →
      l'.client.block = l.client.block → l'.statusLine.bind RecvLoop.lengthLine = none := by
    intro l' hnumber hstart hblock
    have hoffset : l'.client.offset l'.lineStart = none := by
      rw [hstart, ← h.lineStart]
      unfold MemuncachedClient.offset
      rw [hblock]
    have hlt := h.lineNumber
    by_cases hzero : l'.lineNumber = 0
    · rw [RecvLoop.statusLine, if_pos hzero, hoffset]
      rfl
    · rw [statusLine_done hzero, Option.bind_some, RecvLoop.lengthLine, if_pos (by omega), hoffset]
      rfl
  have hbody : l.body heap (s.take n) = .fault := by
    rw [RecvLoop.body, if_neg hfit]
    unfold RecvLoop.handle
    rw [hparse] <;> rfl
  rw [recvStep, hrecv]
  simp only [hbody]

/-! ## The loop -/

/-- One `recv` on a prefix of the response of which `m` bytes have been read. -/
theorem recv_reads (h : AtBytes r m l) (hroom : m < l.client.bufferSize) {q : ℕ}
    (hq : q ≤ r.encode.length) (hm : m < q) {segs : List (List Byte)}
    (hcut : Cut segs ((r.encode.take q).drop m)) (ending : StreamEnd) :
    ∃ n bytes, bytes.length = n ∧ bytes = (r.encode.drop m).take n ∧ 0 < n ∧ m + n ≤ q ∧
      m + n ≤ l.client.bufferSize ∧ Cut (dropBytes n segs) ((r.encode.take q).drop (m + n)) ∧
      Socket.recv { segments := segs, ending := ending } (l.client.bufferSize - l.totalSize) =
        (.data bytes, { segments := dropBytes n segs, ending := ending }) := by
  have hlen : ((r.encode.take q).drop m).length = q - m := by
    rw [List.length_drop, List.length_take]
    omega
  have hne : (r.encode.take q).drop m ≠ [] := List.ne_nil_of_length_pos (by omega)
  obtain ⟨n, hpos, hwant, hle, hrecv⟩ := @Socket.recv_data _ _ ending hcut hne _
    (show 0 < l.client.bufferSize - l.totalSize by rw [h.holds.totalSize]; omega)
  rw [h.holds.totalSize] at hwant
  have hbytes : ((r.encode.take q).drop m).take n = (r.encode.drop m).take n := by
    rw [List.drop_take, List.take_take, min_eq_left (by omega)]
  rw [hbytes] at hrecv
  refine ⟨n, _, ?_, rfl, hpos, by omega, by omega, ?_, hrecv⟩
  · rw [List.length_take, List.length_drop]
    omega
  · rw [← List.drop_drop]
    exact hcut.dropBytes n

/-- One iteration on a prefix of the response of which `m` bytes have been
    read. -/
theorem recvStep_reads (hr : Sendable r) (heap : Heap) (h : AtBytes r m l)
    (hroom : m < l.client.bufferSize) {q : ℕ} (hq : q ≤ r.encode.length) (hm : m < q)
    {segs : List (List Byte)} (hcut : Cut segs ((r.encode.take q).drop m)) (ending : StreamEnd) :
    ∃ n l', 0 < n ∧ m + n ≤ q ∧ m + n ≤ l.client.bufferSize ∧ AtBytes r (m + n) l' ∧
      SameBlock l.client l'.client ∧ Cut (dropBytes n segs) ((r.encode.take q).drop (m + n)) ∧
      recvStep heap (.loop l, { segments := segs, ending := ending }) =
        (if m + n = r.encode.length then .returned true l'.client else l'.grow heap,
          { segments := dropBytes n segs, ending := ending }) := by
  obtain ⟨n, bytes, rfl, hbytes, hpos, hle, hfit, hcut', hrecv⟩ :=
    recv_reads h hroom hq hm hcut ending
  obtain ⟨l', hparse, hat, hsame⟩ := received_parses hr h hbytes hfit (by omega)
  refine ⟨bytes.length, l'.payload, hpos, hle, hfit, hat, by rwa [payload_client], hcut', ?_⟩
  rw [recvStep, hrecv]
  simp only [body_parses hr heap h hfit hparse hat]

end Iteration

end Memuncached.Client
