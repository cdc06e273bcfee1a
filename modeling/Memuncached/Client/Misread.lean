import Memuncached.Client.Response

/-!
# Responses behind other bytes

`memuncached_recv` on a stream whose first line is not the first line of a
response: the code it returns is read from that line, and nothing that arrives
later changes it.

* `recv_misreads`: it returns true with a code that is read from the first
  line only.
-/

namespace Memuncached.Client

open Segments

/-- The codes read from a line that does not start with a response code. -/
def NoCode (code : ℤ) : Prop := code = 0 ∨ code = 1

/-! ## The code stays -/

/-- What `lengthLine` does not touch. -/
theorem lengthLine_code {l l' : RecvLoop} (h : l.lengthLine = some l') (hl : l.lineNumber ≠ 0) :
    l'.lineNumber ≠ 0 ∧ l'.client.response.code = l.client.response.code := by
  unfold RecvLoop.lengthLine at h
  split_ifs at h with hone
  · obtain ⟨lineStart, -, h⟩ := Option.bind_eq_some_iff.mp h
    split at h
    · injection h with h
      rw [← h]
      exact ⟨hl, rfl⟩
    · split_ifs at h
      obtain ⟨bodyType, -, h⟩ := Option.bind_eq_some_iff.mp h
      obtain ⟨bodySize, -, h⟩ := Option.bind_eq_some_iff.mp h
      injection h with h
      rw [← h]
      exact ⟨two_ne_zero, rfl⟩
  · injection h with h
    rw [← h]
    exact ⟨hl, rfl⟩

/-- What a growth does not touch; it never returns true. -/
theorem grow_keeps (heap : Heap) (l : RecvLoop) :
    l.grow heap = .fault ∨ (∃ client, l.grow heap = .returned false client) ∨
      ∃ l' fresh, l.grow heap = .loop l' ∧ l'.lineNumber = l.lineNumber ∧
        l'.lineStart = l.lineStart ∧ l'.totalSize = l.totalSize ∧
        l'.client.response.code = l.client.response.code ∧
        l'.client.buffer = l.client.buffer ++ fresh := by
  unfold RecvLoop.grow
  dsimp only
  split_ifs
  · exact Or.inl rfl
  · right
    cases heap.realloc l.client.reallocs with
    | null => exact Or.inl ⟨_, rfl⟩
    | inPlace => exact Or.inr ⟨_, _, rfl, rfl, rfl, rfl, rfl, rfl⟩
    | moved => exact Or.inr ⟨_, _, rfl, rfl, rfl, rfl, rfl, rfl⟩
  · exact Or.inr (Or.inr ⟨l, [], rfl, rfl, rfl, rfl, rfl, (List.append_nil _).symm⟩)

theorem payload_keeps (l : RecvLoop) :
    l.payload.lineNumber = l.lineNumber ∧ l.payload.lineStart = l.lineStart ∧
      l.payload.totalSize = l.totalSize ∧ l.payload.client = l.client := by
  unfold RecvLoop.payload
  split_ifs
  · exact ⟨rfl, rfl, rfl, rfl⟩
  · exact ⟨rfl, rfl, rfl, rfl⟩

/-! ## The first line -/

/-- The text of which the code is read when the first line is `w`: up to the
    terminator in front of the newline, or to `line_start[3]`. -/
def codeText (w : List Byte) : List Byte := w.take (min 3 (w.length - 1))

/-- The stores of lines 48 and 51 end the code. -/
theorem set_firstLine {w rest : List Byte} (hw : w ≠ [])
    (hlen : 3 < (w ++ 10 :: rest).length) :
    ∃ rest', ((w ++ 10 :: rest).set (w.length - 1) 0).set 3 0 = codeText w ++ 0 :: rest' := by
  set buffer := ((w ++ 10 :: rest).set (w.length - 1) 0).set 3 0 with hbuffer
  set k := min 3 (w.length - 1) with hk
  have hpos : 0 < w.length := List.length_pos_of_ne_nil hw
  have hlen' : buffer.length = (w ++ 10 :: rest).length := by simp [hbuffer]
  have hkw : k < w.length := by omega
  have htake : buffer.take k = codeText w := by
    rw [hbuffer, List.take_set_of_le (by omega), List.take_set_of_le (by omega),
      List.take_append_of_le_length (by omega)]
    rfl
  have hget : buffer[k]? = some 0 := by
    rw [hbuffer, List.getElem?_set, List.getElem?_set, List.length_set]
    by_cases h3 : 3 = k
    · rw [if_pos h3, if_pos hlen]
    · rw [if_neg h3, if_pos (by omega), if_pos (by rw [List.length_append]; omega)]
  refine ⟨buffer.drop (k + 1), ?_⟩
  obtain ⟨hlt, hzero⟩ := List.getElem?_eq_some_iff.mp hget
  rw [← htake, ← hzero, ← List.drop_eq_getElem_cons hlt, List.take_append_drop]

/-! ## The run -/

/-- The first line has not been parsed of a stream whose first line is `w`. -/
structure FirstLine (w rest : List Byte) (l : RecvLoop) (segs : List (List Byte)) : Prop where
  lineNumber : l.lineNumber = 0
  total_le : l.totalSize ≤ (w ++ 10 :: rest).length
  buffer : ∃ tail, l.client.buffer = (w ++ 10 :: rest).take l.totalSize ++ tail
  lineStart : ∃ block, l.lineStart = .into block 0
  cut : Cut segs ((w ++ 10 :: rest).drop l.totalSize)

/-- Either the newline has not arrived, or no reply code has been read. -/
def Misreads (w rest : List Byte) : RecvState × Socket → Prop
  | (.loop l, sock) =>
    (FirstLine w rest l sock.segments ∧ l.totalSize ≤ w.length) ∨
      (l.lineNumber ≠ 0 ∧ NoCode l.client.response.code)
  | (.returned ok client, _) => ok = true → NoCode client.response.code
  | (.fault, _) => True

section Run

variable {w rest : List Byte} {heap : Heap} {l : RecvLoop} {segs : List (List Byte)}
  {ending : StreamEnd}

theorem FirstLine.received (h : FirstLine w rest l segs) {bytes : List Byte}
    (hbytes : bytes = ((w ++ 10 :: rest).drop l.totalSize).take bytes.length)
    (hfit : l.totalSize + bytes.length ≤ l.client.buffer.length) :
    FirstLine w rest
      { l with
        client := { l.client with buffer := store l.client.buffer l.totalSize bytes }
        readSize := bytes.length
        totalSize := l.totalSize + bytes.length }
      (dropBytes bytes.length segs) := by
  obtain ⟨tail, htail⟩ := h.buffer
  have hle := h.total_le
  have hroom : bytes.length ≤ tail.length := by
    have hsize := congrArg List.length htail
    rw [List.length_append, List.length_take] at hsize
    omega
  constructor
  case lineNumber => exact h.lineNumber
  case total_le =>
    have hcount := congrArg List.length hbytes
    rw [List.length_take, List.length_drop] at hcount
    show l.totalSize + bytes.length ≤ _
    omega
  case buffer =>
    refine ⟨tail.drop bytes.length, ?_⟩
    show store l.client.buffer l.totalSize bytes = (w ++ 10 :: rest).take (_ + _) ++ _
    rw [htail, store_append (by rw [List.length_take]; omega) hroom, List.take_add, ← hbytes]
  case lineStart => exact h.lineStart
  case cut =>
    show Cut _ ((w ++ 10 :: rest).drop (l.totalSize + bytes.length))
    rw [← List.drop_drop]
    exact h.cut.dropBytes _

/-- What the first scan looks at. -/
theorem FirstLine.window (h : FirstLine w rest l segs) :
    (l.client.buffer.take l.totalSize).drop 0 = (w ++ 10 :: rest).take l.totalSize := by
  obtain ⟨tail, htail⟩ := h.buffer
  have hcount : ((w ++ 10 :: rest).take l.totalSize).length = l.totalSize := by
    rw [List.length_take, min_eq_left h.total_le]
  rw [htail, List.drop_zero, List.take_left' hcount]

/-- Behind the first line the code stays as it is. -/
theorem misreads_lines (hl : l.lineNumber ≠ 0) (hcode : NoCode l.client.response.code)
    (sock : Socket) : Misreads w rest (l.handle heap, sock) := by
  unfold RecvLoop.handle
  rw [statusLine_done hl, Option.bind_some]
  cases hparse : l.lengthLine with
  | none => trivial
  | some l' =>
    obtain ⟨hl', hcode'⟩ := lengthLine_code hparse hl
    obtain ⟨hnumber, -, -, hclient⟩ := payload_keeps l'
    have hpayload : NoCode l'.payload.client.response.code := by rwa [hclient, hcode']
    dsimp only
    split_ifs
    · exact fun _ => hpayload
    · rcases grow_keeps heap l'.payload with h | ⟨client, h⟩ | ⟨l'', fresh, h, hn, -, -, hc, -⟩
      · rw [h]
        trivial
      · rw [h]
        exact fun hfalse => absurd hfalse (by decide)
      · rw [h]
        right
        rw [hn, hnumber, hc]
        exact ⟨hl', hpayload⟩

/-- The newline has not arrived. -/
theorem misreads_incomplete (hw : (10 : Byte) ∉ w) (h : FirstLine w rest l segs)
    (hoffset : l.client.offset l.lineStart = some 0) (hline : l.totalSize ≤ w.length) :
    Misreads w rest (l.handle heap, { segments := segs, ending := ending }) := by
  have hnumber := h.lineNumber
  have hscan : scanNewline ((l.client.buffer.take l.totalSize).drop 0) 0 = none := by
    rw [h.window]
    exact scanNewline_none (newline_not_mem_take hw (by omega)) 0
  have hstatus : l.statusLine = some l := by
    rw [RecvLoop.statusLine, if_pos hnumber, hoffset]
    simp only [Option.bind_eq_bind, Option.bind_some, hscan]
    rfl
  obtain ⟨hnumber', hstart', htotal', hclient'⟩ := payload_keeps l
  have hcomplete : l.payload.complete = false := by
    rw [RecvLoop.complete, hnumber', hnumber]
    rfl
  unfold RecvLoop.handle
  rw [hstatus, Option.bind_some, lengthLine_done (by rw [hnumber]; decide)]
  dsimp only
  rw [hcomplete, if_neg (by decide)]
  rcases grow_keeps heap l.payload with hg | ⟨client, hg⟩ | ⟨l', fresh, hg, hn, hs, ht, -, hb⟩
  · rw [hg]
    trivial
  · rw [hg]
    exact fun hfalse => absurd hfalse (by decide)
  · rw [hg]
    rw [htotal'] at ht
    obtain ⟨tail, htail⟩ := h.buffer
    obtain ⟨block, hblock⟩ := h.lineStart
    refine Or.inl ⟨?_, by rwa [ht]⟩
    constructor
    case lineNumber => rw [hn, hnumber', hnumber]
    case total_le => rw [ht]; exact h.total_le
    case buffer =>
      refine ⟨tail ++ fresh, ?_⟩
      rw [hb, ht, hclient', htail, List.append_assoc]
    case lineStart => exact ⟨block, by rw [hs, hstart', hblock]⟩
    case cut => rw [ht]; exact h.cut

/-- The newline has arrived: the code is read from `codeText w`. -/
theorem misreads_newline (hw : (10 : Byte) ∉ w)
    (hcode : w ≠ [] → ∀ rest, NoCode (atoi (codeText w ++ 0 :: rest)))
    (h : FirstLine w rest l segs) (hoffset : l.client.offset l.lineStart = some 0)
    (hline : w.length < l.totalSize) (sock : Socket) :
    Misreads w rest (l.handle heap, sock) := by
  obtain ⟨tail, htail⟩ := h.buffer
  obtain ⟨behind, htake⟩ : ∃ behind, (w ++ 10 :: rest).take l.totalSize = w ++ 10 :: behind := by
    obtain ⟨n, hn⟩ : ∃ n, l.totalSize = w.length + (n + 1) :=
      ⟨l.totalSize - w.length - 1, by omega⟩
    refine ⟨rest.take n, ?_⟩
    rw [hn, List.take_length_add_append, List.take_succ_cons]
  have hscan : scanNewline ((l.client.buffer.take l.totalSize).drop 0) 0 = some w.length := by
    rw [h.window, htake, scanNewline_append hw, Nat.zero_add]
  have hbuffer : l.client.buffer = w ++ 10 :: (behind ++ tail) := by
    rw [htail, htake, List.append_assoc, List.cons_append]
  cases hstatus : l.statusLine with
  | none =>
    unfold RecvLoop.handle
    rw [hstatus]
    trivial
  | some l' =>
    have hparsed : l'.lineNumber ≠ 0 ∧ NoCode l'.client.response.code := by
      rw [RecvLoop.statusLine, if_pos h.lineNumber, hoffset] at hstatus
      simp only [Option.bind_eq_bind, Option.bind_some, hscan, Nat.zero_add] at hstatus
      split_ifs at hstatus with hbad
      rw [not_or, not_le] at hbad
      have hne : w ≠ [] := fun hnil => hbad.1 (by rw [hnil]; rfl)
      obtain ⟨rest', hset⟩ := @set_firstLine w (behind ++ tail) hne (by rw [← hbuffer]; exact hbad.2)
      rw [hbuffer, hset] at hstatus
      obtain ⟨code, hatoi, hstatus⟩ := Option.bind_eq_some_iff.mp hstatus
      have hvalue : code = atoi (codeText w ++ 0 :: rest') := by
        unfold atoiAt at hatoi
        split_ifs at hatoi
        injection hatoi with hatoi
        exact hatoi.symm
      injection hstatus with hstatus
      rw [← hstatus]
      exact ⟨one_ne_zero, by rw [hvalue]; exact hcode hne rest'⟩
    have hskip : l.handle heap = l'.handle heap := by
      unfold RecvLoop.handle
      rw [hstatus, Option.bind_some, statusLine_done hparsed.1, Option.bind_some]
    rw [hskip]
    exact misreads_lines hparsed.1 hparsed.2 sock

theorem misreads_parse (hw : (10 : Byte) ∉ w)
    (hcode : w ≠ [] → ∀ rest, NoCode (atoi (codeText w ++ 0 :: rest)))
    (h : FirstLine w rest l segs) :
    Misreads w rest (l.handle heap, { segments := segs, ending := ending }) := by
  obtain ⟨block, hblock⟩ := h.lineStart
  by_cases hstale : block = l.client.block
  · have hoffset : l.client.offset l.lineStart = some 0 := by
      rw [hblock]
      exact if_pos hstale
    by_cases hline : l.totalSize ≤ w.length
    · exact misreads_incomplete hw h hoffset hline
    · exact misreads_newline hw hcode h hoffset (by omega) _
  · have hoffset : l.client.offset l.lineStart = none := by
      rw [hblock]
      exact if_neg hstale
    have hnone : l.statusLine = none := by
      rw [RecvLoop.statusLine, if_pos h.lineNumber, hoffset]
      rfl
    unfold RecvLoop.handle
    rw [hnone]
    trivial

theorem misreads_step (hw : (10 : Byte) ∉ w)
    (hcode : w ≠ [] → ∀ rest, NoCode (atoi (codeText w ++ 0 :: rest))) {s : RecvState × Socket}
    (h : Misreads w rest s) : Misreads w rest (recvStep heap s) := by
  obtain ⟨state, sock⟩ := s
  cases state with
  | fault => trivial
  | returned ok client => exact h
  | loop l =>
    rw [recvStep]
    rcases h with ⟨hfirst, hle⟩ | ⟨hl, hcode'⟩
    · by_cases hwant : l.client.bufferSize - l.totalSize = 0
      · have hrecv : sock.recv (l.client.bufferSize - l.totalSize) = (.eof, sock) := if_pos hwant
        rw [hrecv]
        exact fun hfalse => absurd hfalse (by decide)
      · have hne : (w ++ 10 :: rest).drop l.totalSize ≠ [] := by
          refine List.ne_nil_of_length_pos ?_
          rw [List.length_drop, List.length_append, List.length_cons]
          omega
        obtain ⟨n, -, -, hn, hrecv⟩ := @Socket.recv_data _ _ sock.ending hfirst.cut hne _
          (Nat.pos_of_ne_zero hwant)
        have hcount : (((w ++ 10 :: rest).drop l.totalSize).take n).length = n := by
          rw [List.length_take, min_eq_left hn]
        rw [hrecv]
        dsimp only
        unfold RecvLoop.body
        split_ifs with hfit
        · trivial
        · have hreceived := @FirstLine.received w rest l sock.segments hfirst
            (((w ++ 10 :: rest).drop l.totalSize).take n) (by rw [hcount]) (by omega)
          rw [hcount] at hreceived ⊢
          exact misreads_parse hw hcode hreceived
    · cases hrecv : sock.recv (l.client.bufferSize - l.totalSize) with
      | mk result sock' =>
        cases result with
        | eof => exact fun hfalse => absurd hfalse (by decide)
        | error => exact fun hfalse => absurd hfalse (by decide)
        | block => exact Or.inr ⟨hl, hcode'⟩
        | data bytes =>
          dsimp only
          unfold RecvLoop.body
          split_ifs
          · trivial
          · apply misreads_lines
            · exact hl
            · exact hcode'

end Run

/-- The code that `memuncached_recv` returns with true is read from the first
    line of the stream. -/
theorem recv_misreads {heap : Heap} {w rest : List Byte} (hw : (10 : Byte) ∉ w)
    (hcode : w ≠ [] → ∀ rest, NoCode (atoi (codeText w ++ 0 :: rest)))
    {client client' : MemuncachedClient} {segs : List (List Byte)}
    (hcut : Cut segs (w ++ 10 :: rest)) {ending : StreamEnd} {sock' : Socket}
    (h : RecvReturns heap client { segments := segs, ending := ending } true client' sock') :
    NoCode client'.response.code := by
  have hinit : Misreads w rest (recvStart client, { segments := segs, ending := ending }) := by
    refine Or.inl ⟨⟨rfl, Nat.zero_le _, ⟨client.buffer, rfl⟩, ⟨client.block, rfl⟩, hcut⟩, ?_⟩
    exact Nat.zero_le _
  have hrun : ∀ n, Misreads w rest
      (memuncachedRecv heap client { segments := segs, ending := ending } n) := by
    intro n
    unfold memuncachedRecv
    induction n with
    | zero => exact hinit
    | succ n ih =>
      rw [Function.iterate_succ_apply']
      exact misreads_step hw hcode ih
  obtain ⟨n, hn⟩ := h
  have hlast := hrun n
  rw [hn] at hlast
  exact hlast rfl

end Memuncached.Client
