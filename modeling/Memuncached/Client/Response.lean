import Memuncached.Client.Decode

/-!
# Decoding a response

`memuncached_recv` on a response of the server, carried to its end, whatever
the segments are it arrives in.

* `recv_cases`: it reads the whole response and returns true with its fields,
  all growths being sound, or a growth is not and it fails.
* `memuncachedRecv_encode`: with positions taken as offsets it decodes what the
  server has encoded, and returns false behind a proper prefix.
-/

namespace Memuncached.Client

open Segments Server

/-- The fields of `client->response`, and the bytes they point at, are those of
    the response; the description is terminated and the trailer follows the
    body. -/
structure Decodes (r : Response) (client : MemuncachedClient) : Prop where
  code : client.response.code = digitsVal r.code
  description : client.bytesAt client.response.description (r.description.length + 1) =
    some (r.description ++ [0])
  bodySize : client.response.bodySize = r.body.length
  bodyType : client.response.bodyType.toInt = (r.type.getD 0 : ℕ)
  body : client.bytesAt client.response.body client.response.bodySize = some r.body
  trailer : client.bytesAt client.response.body (client.response.bodySize + 3) = some (bodyText r)

/-- The buffer has doubled `j` times since it had `size` bytes, each time
    before the end of the response and soundly. -/
structure Grown (heap : Heap) (r : Response) (size start j : ℕ) (client : MemuncachedClient) :
    Prop where
  bufferSize : client.bufferSize = size * 2 ^ j
  reallocs : client.reallocs = start + j
  sound : ∀ i < j, size * 2 ^ i < r.encode.length ∧ GrowthOk heap r (size * 2 ^ i) (start + i)

/-- The call ends without a result. -/
def Fails (heap : Heap) (s : RecvState × Socket) : Prop :=
  ∃ n sock, (recvStep heap)^[n] s = (.fault, sock) ∨
    ∃ client, (recvStep heap)^[n] s = (.returned false client, sock)

section Runs

variable {heap : Heap} {r : Response} {m : ℕ} {l : RecvLoop}

/-! ## The fields -/

theorem bytesAt_append {client : MemuncachedClient} {pre bytes rest : List Byte}
    (hbuffer : client.buffer = pre ++ (bytes ++ rest)) :
    client.bytesAt (.into client.block pre.length) bytes.length = some bytes := by
  have hoffset : client.offset (.into client.block pre.length) = some pre.length := if_pos rfl
  rw [MemuncachedClient.bytesAt, hoffset, Option.bind_some, if_pos, hbuffer, List.drop_left,
    List.take_left]
  rw [hbuffer, List.length_append, List.length_append]
  omega

/-- What stands behind a pointer splits the buffer. -/
theorem exists_of_bytesAt {client : MemuncachedClient} {p : Pointer} {n : ℕ} {bytes : List Byte}
    (h : client.bytesAt p n = some bytes) :
    ∃ pre rest, client.offset p = some pre.length ∧ client.buffer = pre ++ (bytes ++ rest) := by
  obtain ⟨off, hoff, hbytes⟩ := Option.bind_eq_some_iff.mp h
  split_ifs at hbytes with hfit
  rw [Option.some.injEq] at hbytes
  refine ⟨client.buffer.take off, (client.buffer.drop off).drop n, ?_, ?_⟩
  · rw [hoff, List.length_take, min_eq_left (by omega)]
  · rw [← hbytes, List.take_append_drop, List.take_append_drop]

theorem AtBytes.decodes (hr : Sendable r) (h : AtBytes r r.encode.length l) :
    Decodes r l.client := by
  have hheader : headerLen r ≤ r.encode.length := by
    rw [length_encode]
    omega
  have hholds := h.holds
  rw [linesAt_two hheader] at hholds
  obtain ⟨hcode, hdescription⟩ := hholds.status (by decide)
  obtain ⟨hbodySize, hbody, htype⟩ := hholds.header (le_refl 2)
  obtain ⟨tail, htail⟩ := hholds.buffer
  have hwhole : (unparsed r 2).take (r.encode.length - parsedLen r 2) = bodyText r := by
    refine List.take_of_length_le ?_
    have hlen := length_unparsed r 2
    omega
  rw [hwhole] at htail
  have hlen : (parsed r 2).length = headerLen r := length_parsed r 2
  constructor
  case code => exact hcode
  case description =>
    have hpre : l.client.buffer = (r.code ++ [0]) ++
        ((r.description ++ [0]) ++ (10 :: lengthParsed r ++ (bodyText r ++ tail))) := by
      rw [htail]
      simp [parsed, statusParsed]
    have hfour : (r.code ++ [(0 : Byte)]).length = 4 := by
      rw [List.length_append, hr.wellFormed.code_length]
      rfl
    rw [hdescription, ← hfour]
    have hsucc : r.description.length + 1 = (r.description ++ [(0 : Byte)]).length := by simp
    rw [hsucc]
    exact bytesAt_append hpre
  case bodySize => exact hbodySize
  case bodyType =>
    have hlt : r.type.getD 0 < 128 := by
      cases htyped : r.type with
      | none => decide
      | some t => exact hr.type t htyped
    rw [htype, Int8.toInt_ofInt]
    exact Int.bmod_eq_of_le (by omega) (by norm_num; omega)
  case body =>
    rw [hbody, hbodySize, ← hlen]
    have hpre : l.client.buffer = parsed r 2 ++ (r.body ++ (0 :: crlf ++ tail)) := by
      rw [htail]
      simp [bodyText]
    exact bytesAt_append hpre
  case trailer =>
    have htrailer : r.body.length + 3 = (bodyText r).length := by simp [bodyText, crlf]
    rw [hbody, hbodySize, ← hlen, htrailer]
    exact bytesAt_append htail

theorem Grown.sameBlock {size start j : ℕ} {client client' : MemuncachedClient}
    (h : Grown heap r size start j client) (hsame : SameBlock client client') :
    Grown heap r size start j client' :=
  ⟨hsame.bufferSize.trans h.bufferSize, hsame.reallocs.trans h.reallocs, h.sound⟩

/-- A sound growth is one more doubling. -/
theorem Grown.grow {size start j : ℕ} (h : AtBytes r m l)
    (hgrown : Grown heap r size start j l.client) (hm : m = l.client.bufferSize)
    (hpos : 0 < m) (hlt : m < r.encode.length) (hok : GrowthOk heap r m l.client.reallocs) :
    ∃ l', l.grow heap = .loop l' ∧ AtBytes r m l' ∧ m < l'.client.bufferSize ∧
      Grown heap r size start (j + 1) l'.client := by
  obtain ⟨l', hgrow, hat, hsize, hreallocs⟩ := grow_full h hm hok
  have hpow : m = size * 2 ^ j := hm.trans hgrown.bufferSize
  refine ⟨l', hgrow, hat, by omega, ?_, ?_, ?_⟩
  · rw [hsize, hpow, pow_succ]
    ring
  · rw [hreallocs, hgrown.reallocs]
    rfl
  · intro i hi
    rcases Nat.lt_succ_iff_lt_or_eq.mp hi with hi | rfl
    · exact hgrown.sound i hi
    · rw [← hpow, ← hgrown.reallocs]
      exact ⟨hlt, hok⟩

/-- Room is left behind `m` bytes, or a sound growth makes some; or the growth
    that the full buffer needs is not sound. -/
theorem Grown.next {size start j : ℕ} (h : AtBytes r m l)
    (hgrown : Grown heap r size start j l.client) (hpos : 0 < m) (hle : m ≤ l.client.bufferSize)
    (hlt : m < r.encode.length) :
    (∃ l' j', l.grow heap = .loop l' ∧ AtBytes r m l' ∧ m < l'.client.bufferSize ∧
        Grown heap r size start j' l'.client) ∨
      m = l.client.bufferSize ∧ m = size * 2 ^ j ∧ ¬ GrowthOk heap r m (start + j) := by
  rcases Nat.lt_or_eq_of_le hle with hroom | hfull
  · exact Or.inl ⟨l, j, grow_room heap h hroom, h, hroom, hgrown⟩
  · by_cases hok : GrowthOk heap r m l.client.reallocs
    · obtain ⟨l', hgrow, hat, hroom, hgrown'⟩ := hgrown.grow h hfull hpos hlt hok
      exact Or.inl ⟨l', j + 1, hgrow, hat, hroom, hgrown'⟩
    · rw [hgrown.reallocs] at hok
      exact Or.inr ⟨hfull, hfull.trans hgrown.bufferSize, hok⟩

/-! ## The run -/

theorem Fails.step {s : RecvState × Socket} (h : Fails heap (recvStep heap s)) : Fails heap s := by
  obtain ⟨n, sock, h⟩ := h
  exact ⟨n + 1, sock, h⟩

/-- The call returns true with the fields of the response, having read all of
    it. -/
def ReadsAll (heap : Heap) (r : Response) (size start : ℕ) (s : RecvState × Socket) : Prop :=
  ∃ n client j, (recvStep heap)^[n] s =
      (.returned true client, { segments := [], ending := s.2.ending }) ∧
    Decodes r client ∧ Grown heap r size start j client ∧
      client.buffer.length = client.bufferSize ∧ r.encode.length ≤ size * 2 ^ j

theorem ReadsAll.step {size start : ℕ} {s : RecvState × Socket}
    (hending : (recvStep heap s).2.ending = s.2.ending)
    (h : ReadsAll heap r size start (recvStep heap s)) : ReadsAll heap r size start s := by
  obtain ⟨n, client, j, hn, h⟩ := h
  refine ⟨n + 1, client, j, ?_, h⟩
  rw [hending] at hn
  exact hn

/-- From `m` bytes on: every growth is sound and the call decodes the response,
    or one is not and it fails. -/
theorem recv_loop_cases (hr : Sendable r) {size start : ℕ} (ending : StreamEnd) :
    ∀ d m j l segs, r.encode.length - m = d → m < r.encode.length → AtBytes r m l →
      m < l.client.bufferSize → Grown heap r size start j l.client →
      Cut segs (r.encode.drop m) →
      ReadsAll heap r size start (.loop l, { segments := segs, ending := ending }) ∨
        (∃ k, size * 2 ^ k < r.encode.length ∧
          ¬ GrowthOk heap r (size * 2 ^ k) (start + k)) ∧
        Fails heap (.loop l, { segments := segs, ending := ending }) := by
  intro d
  induction d using Nat.strong_induction_on with
  | _ d ih =>
    intro m j l segs hd hm h hroom hgrown hcut
    rw [← @List.take_length _ r.encode] at hcut
    obtain ⟨n, l', hpos, hle, hfull, hat, hsame, hcut', hstep⟩ :=
      recvStep_reads hr heap h hroom (le_refl _) hm hcut ending
    rw [List.take_length] at hcut'
    have hgrown' := hgrown.sameBlock hsame
    have hsize := hgrown'.bufferSize
    by_cases hend : m + n = r.encode.length
    · -- the last byte
      left
      rw [if_pos hend] at hstep
      rw [hend, List.drop_length] at hcut'
      rw [hend] at hat
      refine ⟨1, l'.client, j, ?_, hat.decodes hr, hgrown', hat.bufferSize, ?_⟩
      · rw [Function.iterate_one, hstep, hcut'.eq_nil]
      · rw [← hsize, hsame.bufferSize]
        omega
    · rw [if_neg hend] at hstep
      rcases hgrown'.next hat (by omega) (by rw [hsame.bufferSize]; exact hfull) (by omega) with
        ⟨l'', j', hgrow, hat'', hroom'', hgrown''⟩ | ⟨hm', hpow, hbad⟩
      · -- the loop goes on with `l''`, whose buffer has doubled `j'` times
        rw [hgrow] at hstep
        rcases ih (r.encode.length - (m + n)) (by omega) (m + n) j' l'' _ rfl (by omega) hat''
          hroom'' hgrown'' hcut' with hreads | ⟨hbad, hfails⟩
        · left
          apply ReadsAll.step
          · rw [hstep]
          · rwa [hstep]
        · right
          refine ⟨hbad, Fails.step ?_⟩
          rwa [hstep]
      · right
        refine ⟨⟨j, by omega, hpow ▸ hbad⟩, ?_⟩
        rw [← hgrown'.reallocs] at hbad
        rcases grow_harmful hat (by omega) hm' hbad with hgrow | ⟨client, hgrow⟩ | ⟨l'', hgrow, hstale⟩
        · exact ⟨1, _, Or.inl (by rw [← hgrow]; exact hstep)⟩
        · exact ⟨1, _, Or.inr ⟨client, by rw [← hgrow]; exact hstep⟩⟩
        · have hne : r.encode.drop (m + n) ≠ [] :=
            List.ne_nil_of_length_pos (by rw [List.length_drop]; omega)
          obtain ⟨sock, hfault⟩ := @recvStep_stale _ heap hstale _ _ hcut' hne ending
          refine Fails.step ⟨1, sock, Or.inl ?_⟩
          rw [hstep, hgrow]
          exact hfault

/-- Every growth during a call that reads the response is sound. -/
def Sound (heap : Heap) (r : Response) (client : MemuncachedClient) : Prop :=
  ∀ k, client.bufferSize * 2 ^ k < r.encode.length →
    GrowthOk heap r (client.bufferSize * 2 ^ k) (client.reallocs + k)

/-- A heap that grows blocks in place does so soundly. -/
theorem sound_inPlace {heap : Heap} (hheap : ∀ i, heap.realloc i = .inPlace) {r : Response}
    (hlen : r.encode.length < 2 ^ 30) (client : MemuncachedClient) : Sound heap r client := by
  intro k hk
  refine growthOk_inPlace hheap r ?_ _
  unfold intMax
  omega

/-- The local variables at the start of a call. -/
theorem recvStart_loop (r : Response) {client : MemuncachedClient}
    (hbuffer : client.buffer.length = client.bufferSize) :
    ∃ l, recvStart client = .loop l ∧ AtBytes r 0 l ∧ SameBlock client l.client := by
  have hstatus : 0 < statusLen r := by
    simp only [statusLen, statusText, crlf, List.length_append, List.length_cons, List.length_nil]
    omega
  refine ⟨_, rfl, ⟨?_, (Nat.zero_sub _).symm, hbuffer⟩, ⟨rfl, rfl, rfl, rfl⟩⟩
  rw [linesAt_zero hstatus]
  constructor
  case lineNumber => rfl
  case totalSize => rfl
  case parsed_le => exact le_refl 0
  case buffer => exact ⟨client.buffer, rfl⟩
  case le_encode => exact Nat.zero_le _
  case lineStart => exact fun _ => if_pos rfl
  case untyped => exact fun _ => rfl
  case status => exact fun h => absurd h (by decide)
  case header => exact fun h => absurd h (by decide)

/-- `memuncached_recv` on a response of the server, in any segments: it decodes
    the response and has read all of it exactly if every growth is sound. -/
theorem recv_cases (hr : Sendable r) {client : MemuncachedClient}
    (hbuffer : client.buffer.length = client.bufferSize) (hpos : 0 < client.bufferSize)
    {segs : List (List Byte)} (hcut : Cut segs r.encode) (ending : StreamEnd) :
    (Sound heap r client ∧ ∃ client' j,
      RecvReturns heap client { segments := segs, ending := ending } true client'
        { segments := [], ending := ending } ∧
      Decodes r client' ∧ Grown heap r client.bufferSize client.reallocs j client' ∧
        client'.buffer.length = client'.bufferSize ∧
          r.encode.length ≤ client.bufferSize * 2 ^ j) ∨
      ¬ Sound heap r client ∧
        Fails heap (recvStart client, { segments := segs, ending := ending }) := by
  obtain ⟨l, hstart, hat, hsame⟩ := recvStart_loop r hbuffer
  have hgrown : Grown heap r client.bufferSize client.reallocs 0 l.client :=
    ⟨by rw [hsame.bufferSize, pow_zero, mul_one], hsame.reallocs, by simp⟩
  have hlen := length_encode r
  rcases recv_loop_cases hr ending _ 0 0 l segs rfl (by omega) hat (by rwa [hsame.bufferSize])
    hgrown hcut with ⟨n, client', j, hn, hdecodes, hgrown', hbuffer', hle⟩ | ⟨⟨k, hk, hbad⟩, hfails⟩
  · left
    refine ⟨?_, client', j, ⟨n, ?_⟩, hdecodes, hgrown', hbuffer', hle⟩
    · intro k hk
      have hlt : k < j := by
        by_contra hge
        have hpow : 2 ^ j ≤ 2 ^ k := Nat.pow_le_pow_right (by omega) (by omega)
        have hmul := Nat.mul_le_mul_left client.bufferSize hpow
        omega
      exact (hgrown'.sound k hlt).2
    · rw [memuncachedRecv, hstart, hn]
  · right
    refine ⟨fun hsound => hbad (hsound k hk), ?_⟩
    rwa [hstart]

/-- A call that fails does not return true. -/
theorem Fails.not_returns {client client' : MemuncachedClient} {sock sock' : Socket}
    (h : Fails heap (recvStart client, sock)) :
    ¬ RecvReturns heap client sock true client' sock' := by
  rintro ⟨n, hn⟩
  obtain ⟨n', sock'', h⟩ := h
  have hboth : (recvStep heap)^[n + n'] (recvStart client, sock) = (.returned true client', sock') := by
    rw [Nat.add_comm, Function.iterate_add_apply]
    unfold memuncachedRecv at hn
    rw [hn, recvStep_returned]
  rw [Function.iterate_add_apply] at hboth
  rcases h with h | ⟨client'', h⟩
  · rw [h, recvStep_fault] at hboth
    simp at hboth
  · rw [h, recvStep_returned] at hboth
    simp at hboth

/-! ## Prefixes -/

/-- A proper prefix of a response and the end of the stream. -/
theorem recv_loop_prefix (hr : Sendable r) {size start q : ℕ} (hq : q < r.encode.length)
    (hsound : ∀ k, size * 2 ^ k < r.encode.length →
      GrowthOk heap r (size * 2 ^ k) (start + k)) :
    ∀ d m j l segs, q - m = d → m ≤ q → AtBytes r m l → m < l.client.bufferSize →
      Grown heap r size start j l.client → Cut segs ((r.encode.take q).drop m) →
      ∃ n client, (recvStep heap)^[n] (.loop l, { segments := segs, ending := .eof }) =
        (.returned false client, { segments := [], ending := .eof }) := by
  intro d
  induction d using Nat.strong_induction_on with
  | _ d ih =>
    intro m j l segs hd hm h hroom hgrown hcut
    rcases Nat.lt_or_eq_of_le hm with hlt | rfl
    · obtain ⟨n, l', hpos, hle, hfull, hat, hsame, hcut', hstep⟩ :=
        recvStep_reads hr heap h hroom hq.le hlt hcut .eof
      rw [if_neg (by omega)] at hstep
      have hgrown' := hgrown.sameBlock hsame
      rcases hgrown'.next hat (by omega) (by rw [hsame.bufferSize]; exact hfull) (by omega) with
        ⟨l'', j', hgrow, hat'', hroom'', hgrown''⟩ | ⟨-, hpow, hbad⟩
      · obtain ⟨n', client, hn'⟩ := ih (q - (m + n)) (by omega) (m + n) j' l'' _ rfl hle hat''
          hroom'' hgrown'' hcut'
        refine ⟨n' + 1, client, ?_⟩
        rw [Function.iterate_succ_apply, hstep, hgrow, hn']
      · exact absurd (hpow ▸ hsound j (by omega)) hbad
    · have hdone : (r.encode.take m).drop m = [] :=
        List.drop_eq_nil_of_le (by rw [List.length_take]; omega)
      rw [hdone] at hcut
      have hrecv := @Socket.recv_end .eof (l.client.bufferSize - l.totalSize)
        (by rw [h.holds.totalSize]; omega)
      refine ⟨1, l.client, ?_⟩
      rw [Function.iterate_one, hcut.eq_nil, recvStep, hrecv]
      rfl

end Runs

/-- With buffer positions taken as offsets and every `realloc` granted,
    `memuncached_recv` undoes the encoding of the server: it decodes a whole
    response, and returns false behind a proper prefix and the end of the
    stream. -/
theorem memuncachedRecv_encode {heap : Heap} (hheap : ∀ i, heap.realloc i = .inPlace)
    {r : Response} (hr : r.WellFormed) (htype : ∀ t ∈ r.type, t < 128)
    (hlen : r.encode.length < 2 ^ 30) {client : MemuncachedClient}
    (hbuffer : client.buffer.length = client.bufferSize) (hsize : 1 ≤ client.bufferSize) :
    (∀ segs ending, Cut segs r.encode → ∃ client',
      RecvReturns heap client { segments := segs, ending := ending } true client'
        { segments := [], ending := ending } ∧ Decodes r client') ∧
    ∀ q < r.encode.length, ∀ segs, Cut segs (r.encode.take q) → ∃ client',
      RecvReturns heap client { segments := segs, ending := .eof } false client'
        { segments := [], ending := .eof } := by
  have hsendable : Sendable r := ⟨hr, htype, by unfold intMax; omega⟩
  have hsound : Sound heap r client := sound_inPlace hheap hlen client
  constructor
  · intro segs ending hcut
    rcases @recv_cases heap r hsendable client hbuffer hsize segs hcut ending with
      ⟨-, client', j, hreturns, hdecodes, -⟩ | ⟨hbad, -⟩
    · exact ⟨client', hreturns, hdecodes⟩
    · exact absurd hsound hbad
  · intro q hq segs hcut
    obtain ⟨l, hstart, hat, hsame⟩ := recvStart_loop r hbuffer
    have hgrown : Grown heap r client.bufferSize client.reallocs 0 l.client :=
      ⟨by rw [hsame.bufferSize, pow_zero, mul_one], hsame.reallocs, by simp⟩
    obtain ⟨n, client', hn⟩ := recv_loop_prefix hsendable hq hsound _ 0 0 l segs rfl (Nat.zero_le q)
      hat (by rwa [hsame.bufferSize]) hgrown hcut
    refine ⟨client', n, ?_⟩
    rw [memuncachedRecv, hstart, hn]

/-- A heap whose blocks can always grow in place. -/
def Heap.growing : Heap where
  realloc := fun _ => .inPlace
  fresh := fun _ => 0

/-- A heap that moves every block it grows. -/
def Heap.moving : Heap where
  realloc := fun _ => .moved
  fresh := fun _ => 0

/-- A value with a newline and a blank in it. -/
def twoLines : Response where
  code := ascii "200"
  description := ascii "OK"
  type := some 2
  body := ascii "a b\nc"

theorem twoLines_wellFormed : twoLines.WellFormed :=
  ⟨rfl, List.all_eq_true.mp (by decide : (ascii "200").all isDigit = true), by decide⟩

theorem memuncachedRecv_encode_twoLines :
    (∃ client', RecvReturns Heap.growing (clientOf 1)
      { segments := [twoLines.encode.take 5, twoLines.encode.drop 5], ending := .idle } true client'
      { segments := [], ending := .idle } ∧ Decodes twoLines client') ∧
    ∃ client', RecvReturns Heap.growing (clientOf 1)
      { segments := [twoLines.encode.take 5], ending := .eof } false client'
      { segments := [], ending := .eof } := by
  obtain ⟨hwhole, hprefix⟩ := memuncachedRecv_encode (fun _ => rfl : ∀ i, Heap.growing.realloc i = _)
    twoLines_wellFormed (by decide) (by decide) (rfl : (clientOf 1).buffer.length = _) (le_refl 1)
  exact ⟨hwhole _ _ ⟨by decide, by decide⟩, hprefix 5 (by decide) _ ⟨by decide, by decide⟩⟩

end Memuncached.Client
