import Memuncached.Client.Session
import Memuncached.Server.Framing

/-!
# A value on its way to the server and back

`memuncached_set_d` and then `memuncached_get` on one connection: the request
the library prints, the handler that serves it from any segments, the reply,
and the decoder that reads it from any segments.

* `Exchanged`: one call of the library over a connection.
* `setGet_iff`: the value comes back unless the first growth of the client's
  buffer, in the reply to its first request, moves the block.
-/

namespace Memuncached.Client

open Segments Server

/-! ## The library -/

/-- The `data` of `__memuncached_set` and `__memuncached_add`. -/
inductive StoreData (R : Type) where
  | decimal (v : Int64)
  | real (v : R)
  | string (bytes : List Byte)

/-- `union` and `size` of `memuncached_value_result_t`. -/
inductive ResultData (R : Type) where
  | unset
  | decimal (v : Int64)
  | real (v : R)
  | string (bytes : List Byte)
  deriving DecidableEq, Repr

/-- `memuncached_value_result_t`. -/
structure ValueResult (R : Type) where
  type : Int8
  data : ResultData R
  deriving DecidableEq, Repr

/-- The C string a pointer points to; `none` when it has no end in the block. -/
def MemuncachedClient.textAt (client : MemuncachedClient) (p : Pointer) : Option (List Byte) :=
  (client.offset p).bind fun off =>
    if (0 : Byte) ∈ client.buffer.drop off then some (cstr (client.buffer.drop off)) else none

/-- `GET key\r\n`, and so for the other commands with a key alone. -/
def keyLine (cmd key : List Byte) : List Byte := cmd ++ 32 :: key ++ crlf

section Library

variable {R : Type} [CacheValueReal R]

def StoreData.type : StoreData R → ℕ
  | .decimal _ => 0
  | .real _ => 1
  | .string _ => 2

def StoreData.text : StoreData R → List Byte
  | .decimal v => fmtD v.toInt
  | .real v => CacheValueReal.fmtLf v
  | .string bytes => bytes

/-- What `__memuncached_set` and `__memuncached_add` write, with the LENGTH
    that the macros of `libmemuncached.h` compute. -/
def storeLines (cmd key : List Byte) (data : StoreData R) : List Byte :=
  cmd ++ 32 :: key ++ 32 :: fmtD data.type ++ 32 :: fmtD data.text.length ++ crlf ++
    (data.text ++ crlf)

/-- What `__memuncached_set` returns behind `memuncached_recv` (lines 440-442). -/
def setSuccess (ok : Bool) (client : MemuncachedClient) : Bool :=
  ok && client.response.code == 200

/-- What `memuncached_get` returns behind `memuncached_recv` (lines 401-420);
    `none` where it reads outside the buffer. -/
def getResult (ok : Bool) (client : MemuncachedClient) : Option (Bool × Option (ValueResult R)) :=
  if (ok && client.response.code == 200) = true then
    let type := client.response.bodyType
    if type = 0 then
      (client.textAt client.response.body).map fun text =>
        (true, some { type := type, data := .decimal (atoll text) })
    else if type = 1 then
      (client.textAt client.response.body).map fun text =>
        (true, some { type := type, data := .real (CacheValueReal.atof text) })
    else if type = 2 then
      (client.bytesAt client.response.body client.response.bodySize).map fun bytes =>
        (true, some { type := type, data := .string bytes })
    else some (false, some { type := type, data := .unset })
  else some (false, none)

end Library

/-! ## Connections -/

/-- The two ends of a connection; nothing is under way. -/
structure Connection (R : Type) where
  handler : Handler R
  client : MemuncachedClient

/-- How the network cuts the two directions of the stream. -/
structure Cuts where
  up : List Byte → List (List Byte)
  down : List Byte → List (List Byte)

def Cuts.Valid (cuts : Cuts) : Prop := (∀ s, Cut (cuts.up s) s) ∧ ∀ s, Cut (cuts.down s) s

section Connections

variable {R : Type} [CacheValueReal R]

/-- What the handler has written between two states. -/
def written (h h' : Handler R) : List Byte := (repliesOf (h'.log.drop h.log.length)).flatten

/-- One call over the connection: the handler serves the request and waits for
    the next, and `memuncached_recv` reads what it has written. -/
structure Exchanged (env : Env) (heap : Heap) (request : List Byte) (cuts : Cuts)
    (s s' : Connection R) : Prop where
  served : ∃ n, serve env n (s.handler, { segments := cuts.up request, ending := .idle }) =
    (s'.handler, { segments := [], ending := .idle })
  waiting : s'.handler.control = .recvLine ReadLoop.init
  read : RecvReturns heap s.client
    { segments := cuts.down (written s.handler s'.handler), ending := .idle } true s'.client
    { segments := [], ending := .idle }

/-- `memuncached_set_d(key, v)` and `memuncached_get(key)` both return true and
    the result is the decimal `v`. -/
def SetGet (env : Env) (heap : Heap) (key : List Byte) (v : Int64) (setCuts getCuts : Cuts)
    (s : Connection R) : Prop :=
  ∃ s₁ s₂ : Connection R,
    Exchanged env heap (storeLines (ascii "SET") key (.decimal v : StoreData R)) setCuts s s₁ ∧
    setSuccess true s₁.client = true ∧
    Exchanged env heap (keyLine (ascii "GET") key) getCuts s₁ s₂ ∧
    getResult true s₂.client = some (true, some { type := 0, data := .decimal v : ValueResult R })

/-- A connection between two calls: the handler waits for a request, and the
    buffer is one of those that `memuncached_connect` and the growths make. -/
structure Connection.Ready (s : Connection R) : Prop where
  waiting : s.handler.control = .recvLine ReadLoop.init
  running : s.handler.isThreadRunning = true
  buffer : s.client.buffer.length = s.client.bufferSize
  bufferSize : s.client.bufferSize = 10 * 2 ^ s.client.reallocs

/-! ## The requests -/

theorem not_sep_of_mem_fmtD {v : ℤ} {b : Byte} (h : b ∈ fmtD v) :
    b ≠ 0 ∧ isSep b = false ∧ isNewline b = false := by
  have hdigit : ∀ b : Byte, isDigit b = true → b ≠ 0 ∧ isSep b = false ∧ isNewline b = false := by
    decide +kernel
  rcases mem_fmtD h with rfl | hb
  · decide
  · exact hdigit b hb

/-- `SET key 0 n\r\n` and the printed number. -/
def decimalRequest (key : List Byte) (v : Int64) (hkey : Word key) : StoreRequest where
  cmd := ascii "SET"
  key := key
  type := ascii "0"
  length := fmtD (fmtD v.toInt).length
  payload := fmtD v.toInt
  command := commandWord_set
  word_cmd := word_set
  word_key := hkey
  word_type := by decide
  word_length := by
    rw [fmtD_natCast]
    exact word_decimalDigits _
  type_positive := by decide
  length_positive := by
    rw [fmtD_natCast]
    exact isPositiveDecimal_decimalDigits _
  length_eq := by rw [fmtD_natCast, decimalValue_decimalDigits]

/-- `GET key\r\n`. -/
def getLine (key : List Byte) (hkey : Word key) : LineRequest where
  words := [ascii "GET", key]
  ne_nil := by simp
  word_words := by
    intro w hw
    rcases List.mem_pair.mp hw with rfl | rfl
    · decide
    · exact hkey
  not_add := by
    rintro cmd ⟨⟩
    decide
  not_set := by
    rintro cmd ⟨⟩
    decide

theorem storeLines_decimal {key : List Byte} (hkey : Word key) (v : Int64) :
    storeLines (ascii "SET") key (.decimal v : StoreData R) =
      (Request.store (decimalRequest key v hkey)).encode := by
  have hzero : fmtD 0 = ascii "0" := by decide
  simp [storeLines, StoreData.type, StoreData.text, Request.encode, Request.header, Request.body,
    StoreRequest.header, StoreRequest.body, StoreRequest.words, headerLine, joinWords,
    decimalRequest, hzero]

omit [CacheValueReal R] in
theorem keyLine_get {key : List Byte} (hkey : Word key) :
    keyLine (ascii "GET") key = (Request.line (getLine key hkey)).encode := by
  simp [keyLine, Request.encode, Request.header, Request.body, headerLine, joinWords, getLine]

/-- A printed number is stored whatever part of it comes with the header line. -/
theorem decimalRequest_cleanAt {key : List Byte} (hkey : Word key) (v : Int64)
    {segs : List (List Byte)}
    (hcut : Cut segs (Request.store (decimalRequest key v hkey)).encode) :
    (decimalRequest key v hkey).CleanAt
      (spill connectionRecvLength segs (decimalRequest key v hkey).header.length) := by
  set r := decimalRequest key v hkey with hr
  constructor
  case length_le =>
    have hlen : r.payload.length ≤ 20 := length_fmtD_le v
    unfold intMax
    omega
  case spill_le =>
    have hle := spill_le connectionRecvLength segs r.header.length
    rw [hcut.flatten, Request.encode, List.length_append] at hle
    have hbody : (Request.store r).body.length = r.payload.length + 2 := r.length_body
    have hheader : (Request.store r).header.length = r.header.length := rfl
    omega
  case intact =>
    constructor
    · intro b hb
      have hmem : b ∈ fmtD v.toInt := List.mem_of_mem_take (List.mem_of_mem_head? hb)
      exact (not_sep_of_mem_fmtD hmem).2.1
    · intro b hb
      have hmem : b ∈ fmtD v.toInt := List.mem_of_mem_take (List.mem_of_mem_getLast? hb)
      exact (not_sep_of_mem_fmtD hmem).2.2

/-! ## The server -/

/-- `200 OK` without data. -/
def okResponse : Response where
  code := ascii "200"
  description := ascii "OK"
  type := none
  body := []

/-- The value that SET stores. -/
def decimalValueOf (key : List Byte) (v : Int64) : CacheValue R where
  key := key
  type := cacheValueDecimal
  value := .decimal v
  length := 0

theorem perform_decimal {key : List Byte} (hkey : Word key) (v : Int64) (table : HashTable R) :
    ((decimalRequest key v hkey).perform table).1 = some [okResponse.encode] ∧
      hashTableGet ((decimalRequest key v hkey).perform table).2 key =
        some (decimalValueOf key v) := by
  set r := decimalRequest key v hkey with hr
  have hover : r.overwrite = true := by
    show (commandWord (ascii "SET") == some .set) = true
    decide
  have hput := putTerminators_eq r.length_body
    (show r.body.take r.payload.length = r.payload by simp [StoreRequest.body])
  have hvalue : setResult r.key (r.type.headD 0 - 48) r.payload.length (r.payload ++ [0, 0]) =
      some (decimalValueOf key v : CacheValue R) := by
    have htype : r.type.headD 0 - 48 = cacheValueDecimal := by
      show (ascii "0").headD 0 - 48 = cacheValueDecimal
      decide
    have hatoll : atoll (r.payload ++ [0, 0]) = v := by
      refine atoll_fmtD v ?_
      rintro b ⟨⟩
      rfl
    rw [setResult, if_pos htype, hatoll, htype]
    rfl
  have hreply : replySuccess [] = okResponse.encode :=
    responseWrite_eq_encode (ascii "200") (ascii "OK") []
  rw [StoreRequest.perform, exec_setTable, if_pos (Or.inl hover), ← hreply]
  exact setValue_stores hput hvalue table

/-- What the handler has done with a request that is not BYE. -/
structure Served (env : Env) (h h' : Handler R) (segs : List (List Byte)) (reply : List Byte) :
    Prop where
  served : ∃ n, serve env n (h, { segments := segs, ending := .idle }) =
    (h', { segments := [], ending := .idle })
  waiting : h'.control = .recvLine ReadLoop.init
  running : h'.isThreadRunning = true
  written : written h h' = reply

omit [CacheValueReal R] in
theorem written_append {h h' : Handler R} {events : List Event} (hlog : h'.log = h.log ++ events) :
    written h h' = (repliesOf events).flatten := by
  rw [written, hlog, List.drop_left]

/-- A request that arrives alone is served whatever the segments are. -/
theorem served_request {env : Env} (henv : env.AllocationsSucceed) {h : Handler R}
    (hc : h.control = .recvLine ReadLoop.init) (hrun : h.isThreadRunning = true) (r : Request)
    {segs : List (List Byte)} (hcut : Cut segs r.encode)
    (hclean : r.CleanAt (spill connectionRecvLength segs r.header.length))
    (hans : r.Answered h.table) (hopen : ¬ r.Closes) :
    ∃ h' events, Served env h h' segs (repliesOf events).flatten ∧
      Logged h.clientCount h.table r events h'.table ∧ h'.table = r.perform h.table := by
  obtain ⟨n, h', events, hserve, hlogged, htable, hlog, -, -, hgo⟩ :=
    serve_request henv .idle hc hrun r (by rwa [List.append_nil]) hclean hans
  obtain ⟨hwaiting, hrunning⟩ := hgo hopen
  have hrest : dropBytes r.encode.length segs = [] := by
    have hdrop := hcut.dropBytes r.encode.length
    rw [List.drop_length] at hdrop
    exact hdrop.eq_nil
  rw [hrest] at hserve
  exact ⟨h', events, ⟨⟨n, hserve⟩, hwaiting, hrunning, written_append hlog⟩, hlogged, htable⟩

theorem served_set {env : Env} (henv : env.AllocationsSucceed) {h : Handler R}
    (hc : h.control = .recvLine ReadLoop.init) (hrun : h.isThreadRunning = true)
    {key : List Byte} (hkey : Word key) (v : Int64) {segs : List (List Byte)}
    (hcut : Cut segs (Request.store (decimalRequest key v hkey)).encode) :
    ∃ h', Served env h h' segs okResponse.encode ∧
      hashTableGet h'.table key = some (decimalValueOf key v) := by
  obtain ⟨h', events, hserved, hlogged, htable⟩ := served_request henv hc hrun
    (.store (decimalRequest key v hkey)) hcut (decimalRequest_cleanAt hkey v hcut) trivial
    (fun hbye => hbye)
  obtain ⟨hreply, hget⟩ := perform_decimal hkey v h.table
  refine ⟨h', ?_, by rw [htable]; exact hget⟩
  generalize h'.table = table at hlogged
  cases hlogged with
  | store hreply' =>
    rw [hreply] at hreply'
    injection hreply' with hreply'
    injection hreply' with hreply'
    rw [← hreply'] at hserved
    simpa [repliesOf] using hserved

theorem lineCall_get {key : List Byte} (hkey : Word key) :
    lineCall (getLine key hkey).words = .get key := by
  have hword : commandWord (ascii "GET") = some .get := by decide
  simp [getLine, lineCall, hword, keyCall]

theorem served_get {env : Env} (henv : env.AllocationsSucceed) {h : Handler R}
    (hc : h.control = .recvLine ReadLoop.init) (hrun : h.isThreadRunning = true)
    {key : List Byte} (hkey : Word key) {v : Int64}
    (hget : hashTableGet h.table key = some (decimalValueOf key v)) {segs : List (List Byte)}
    (hcut : Cut segs (Request.line (getLine key hkey)).encode) :
    ∃ h', Served env h h' segs (valueResponse (decimalValueOf key v : CacheValue R)).encode := by
  have hcall := lineCall_get hkey
  have hclean : (Request.line (getLine key hkey)).CleanAt
      (spill connectionRecvLength segs (headerLine (getLine key hkey).words).length) := by
    have hle := spill_le connectionRecvLength segs (headerLine (getLine key hkey).words).length
    rw [hcut.flatten] at hle
    simp only [Request.encode, Request.header, Request.body, List.append_nil, Nat.sub_self,
      Nat.le_zero] at hle
    exact hle
  have hfits : ReplyFits (decimalValueOf key v : CacheValue R) :=
    fun h => absurd h (by show cacheValueDecimal ≠ cacheValueString; decide)
  obtain ⟨h', events, hserved, hlogged, -⟩ := served_request henv hc hrun
    (.line (getLine key hkey)) hcut hclean
    (by
      intro key' hkey' x hx
      rw [hcall] at hkey'
      rcases hkey' with hkey' | hkey'
      · injection hkey' with hkey'
        rw [← hkey', hget] at hx
        injection hx with hx
        rw [← hx]
        exact hfits
      · cases hkey')
    (by
      intro hbye
      cases hcall.symm.trans hbye)
  refine ⟨h', ?_⟩
  generalize h'.table = table at hlogged
  cases hlogged with
  | line hdone =>
    have hreply := hdone env [] 0
    have hwf : (decimalValueOf key v : CacheValue R).WellFormed := Or.inl ⟨rfl, ⟨v, rfl⟩, rfl⟩
    rw [hcall] at hreply
    change CommandState.ofTable (memuncachedGet key) h.table = _ at hreply
    rw [ofTable_eq, exec_memuncachedGet, hget, answer, getReply_wellFormed hwf hfits] at hreply
    injection hreply with hevents
    rw [← hevents] at hserved
    simpa [repliesOf] using hserved

/-! ## The client -/

theorem okResponse_sendable : Sendable okResponse where
  wellFormed := ⟨rfl, List.all_eq_true.mp (by decide : (ascii "200").all isDigit = true), by decide⟩
  type := by rintro t ⟨⟩
  length := by decide

/-- The header of the reply to SET is longer than the first buffer, and its
    whole is shorter than the next. -/
theorem sound_okResponse {heap : Heap} (hgrant : ∀ i, heap.realloc i ≠ .null)
    {client : MemuncachedClient} (hsize : client.bufferSize = 10 * 2 ^ client.reallocs) :
    Sound heap okResponse client ↔ (client.reallocs = 0 → heap.realloc 0 ≠ .moved) := by
  have hlen : okResponse.encode.length = 14 := by decide
  have hheader : headerLen okResponse = 11 := by decide
  rw [sound_iff hsize, hlen]
  constructor
  · intro h hzero
    exact (h 0 (by omega) (by norm_num)).2.2 (by rw [hheader]; norm_num)
  · intro h g hg hlt
    have hg0 : g = 0 := by
      by_contra hpos
      have hpow : 2 ^ 1 ≤ 2 ^ g := Nat.pow_le_pow_right (by omega) (by omega)
      omega
    subst hg0
    exact ⟨hgrant 0, by unfold intMax; norm_num, fun _ => h (by omega)⟩

theorem length_valueResponse (key : List Byte) (v : Int64) :
    headerLen (valueResponse (decimalValueOf key v : CacheValue R)) ≤ 14 ∧
      (valueResponse (decimalValueOf key v : CacheValue R)).encode.length ≤ 37 := by
  have hbody : (valueResponse (decimalValueOf key v : CacheValue R)).body = fmtD v.toInt := rfl
  have htype : (valueResponse (decimalValueOf key v : CacheValue R)).type = some 0 := rfl
  have hstatus : statusLen (valueResponse (decimalValueOf key v : CacheValue R)) = 8 := rfl
  have hlen := length_fmtD_le v
  have hdigits : (decimalDigits (fmtD v.toInt).length).length ≤ 2 :=
    length_decimalDigits_le (by norm_num; omega)
  have hzero : (decimalDigits 0).length = 1 := by decide
  have hheader : headerLen (valueResponse (decimalValueOf key v : CacheValue R)) ≤ 14 := by
    rw [headerLen, hstatus, lengthText, hbody, htype]
    simp only [encodeType, crlf, List.length_append, List.length_cons, List.length_nil, hzero]
    omega
  refine ⟨hheader, ?_⟩
  rw [length_encode, hbody]
  omega

theorem valueResponse_sendable (key : List Byte) (v : Int64) :
    Sendable (valueResponse (decimalValueOf key v : CacheValue R)) where
  wellFormed := valueResponse_wellFormed _
  type := by
    rintro t ⟨⟩
    show cacheValueDecimal.toNat < 128
    decide
  length := by
    have hlen := (@length_valueResponse R _ key v).2
    unfold intMax
    omega

/-- Once the buffer has grown, the header of the reply to GET fits into it. -/
theorem sound_valueResponse {heap : Heap} (hgrant : ∀ i, heap.realloc i ≠ .null)
    {client : MemuncachedClient} (hsize : client.bufferSize = 10 * 2 ^ client.reallocs)
    (hgrown : 1 ≤ client.reallocs) (key : List Byte) (v : Int64) :
    Sound heap (valueResponse (decimalValueOf key v : CacheValue R)) client := by
  obtain ⟨hheader, hlen⟩ := @length_valueResponse R _ key v
  rw [sound_iff hsize]
  intro g hg hlt
  have hpow : 2 ^ 1 ≤ 2 ^ g := Nat.pow_le_pow_right (by omega) (by omega)
  refine ⟨hgrant g, ?_, fun hshort => ?_⟩
  · unfold intMax
    omega
  · omega

theorem textAt_of_bytesAt {client : MemuncachedClient} {p : Pointer} {w rest : List Byte} {n : ℕ}
    (hw : (0 : Byte) ∉ w) (h : client.bytesAt p n = some (w ++ 0 :: rest)) :
    client.textAt p = some w := by
  obtain ⟨pre, tail, hoff, hbuffer⟩ := exists_of_bytesAt h
  have hdrop : client.buffer.drop pre.length = w ++ 0 :: (rest ++ tail) := by
    rw [hbuffer, List.drop_left, List.append_assoc, List.cons_append]
  rw [MemuncachedClient.textAt, hoff, Option.bind_some, hdrop, if_pos (by simp),
    cstr_append_zero hw]

theorem code_ok {r : Response} {client : MemuncachedClient} (hr : r.code = ascii "200")
    (h : Decodes r client) : client.response.code = 200 := by
  rw [h.code, hr]
  decide

/-- What `memuncached_get` makes of the reply. -/
theorem getResult_decimal {key : List Byte} {v : Int64} {client : MemuncachedClient}
    (h : Decodes (valueResponse (decimalValueOf key v : CacheValue R)) client) :
    getResult true client =
      some (true, some { type := 0, data := .decimal v : ValueResult R }) := by
  have hcode := code_ok rfl h
  have htype : client.response.bodyType = 0 := by
    apply Int8.toInt_inj.mp
    rw [h.bodyType]
    rfl
  have hnul : (0 : Byte) ∉ fmtD v.toInt := fun hmem => (not_sep_of_mem_fmtD hmem).1 rfl
  have htext : client.textAt client.response.body = some (fmtD v.toInt) :=
    textAt_of_bytesAt hnul h.trailer
  have hatoll : atoll (fmtD v.toInt) = v := by
    have happ := @atoll_fmtD v [] (by rintro b ⟨⟩)
    rwa [List.append_nil] at happ
  rw [getResult, hcode, if_pos (by decide), htype, htext]
  dsimp only
  rw [if_pos rfl, Option.map_some, hatoll]

/-! ## The round trip -/

/-- Two runs of the handler that have used up the stream and wait have logged
    the same. -/
theorem served_unique {env : Env} {s : Handler R × Socket} {h₁ h₂ : Handler R} {n₁ n₂ : ℕ}
    (h1 : serve env n₁ s = (h₁, { segments := [], ending := .idle }))
    (hc1 : h₁.control = .recvLine ReadLoop.init)
    (h2 : serve env n₂ s = (h₂, { segments := [], ending := .idle }))
    (hc2 : h₂.control = .recvLine ReadLoop.init) : h₁.log = h₂.log := by
  have hlater : ∀ {a b : Handler R} {m n : ℕ}, m ≤ n →
      serve env m s = (a, { segments := [], ending := .idle }) →
      a.control = .recvLine ReadLoop.init →
      serve env n s = (b, { segments := [], ending := .idle }) → b.log = a.log := by
    intro a b m n hmn ha hca hb
    obtain ⟨d, rfl⟩ := Nat.exists_eq_add_of_le' hmn
    rw [serve_add, ha] at hb
    have hsame := (serve_settled env (s := (a, { segments := [], ending := .idle }))
      ⟨Or.inl hca, rfl⟩ d).2.1
    rwa [hb] at hsame
  rcases Nat.le_total n₁ n₂ with hle | hle
  · exact (hlater hle h1 hc1 h2).symm
  · exact hlater hle h2 hc2 h1

/-- `memuncached_set_d` does not return true when a growth is not sound. -/
theorem sound_of_setGet {env : Env} (henv : env.AllocationsSucceed) {heap : Heap}
    {key : List Byte} (hkey : Word key) {v : Int64} {setCuts getCuts : Cuts}
    (hset : setCuts.Valid) {s : Connection R} (hs : s.Ready)
    (h : SetGet env heap key v setCuts getCuts s) : Sound heap okResponse s.client := by
  have hpos : 0 < s.client.bufferSize := by
    rw [hs.bufferSize]
    positivity
  obtain ⟨s₁, -, hexchanged, -⟩ := h
  obtain ⟨h₁, hserved, -⟩ := served_set henv hs.waiting hs.running hkey v (hset.1 _)
  rw [← storeLines_decimal (R := R) hkey v] at hserved
  obtain ⟨n₁, hn₁⟩ := hexchanged.served
  obtain ⟨n₂, hn₂⟩ := hserved.served
  have hlog := served_unique hn₁ hexchanged.waiting hn₂ hserved.waiting
  have hwritten : written s.handler s₁.handler = okResponse.encode := by
    rw [← hserved.written, written, written, hlog]
  have hread := hexchanged.read
  rw [hwritten] at hread
  rcases @recv_cases heap okResponse okResponse_sendable s.client hs.buffer hpos
    (setCuts.down okResponse.encode) (hset.2 _) .idle with ⟨hsound, -⟩ | ⟨-, hfails⟩
  · exact hsound
  · exact absurd hread hfails.not_returns

/-- When the growths in the reply to SET are sound, the value comes back. -/
theorem setGet_of_sound {env : Env} (henv : env.AllocationsSucceed) {heap : Heap}
    (hgrant : ∀ i, heap.realloc i ≠ .null) {key : List Byte} (hkey : Word key) (v : Int64)
    {setCuts getCuts : Cuts} (hset : setCuts.Valid) (hget : getCuts.Valid) {s : Connection R}
    (hs : s.Ready) (hsound : Sound heap okResponse s.client) :
    SetGet env heap key v setCuts getCuts s := by
  have hpos : 0 < s.client.bufferSize := by
    rw [hs.bufferSize]
    positivity
  obtain ⟨h₁, hserved, hstored⟩ := served_set henv hs.waiting hs.running hkey v (hset.1 _)
  rw [← storeLines_decimal (R := R) hkey v] at hserved
  rcases @recv_cases heap okResponse okResponse_sendable s.client hs.buffer hpos
    (setCuts.down okResponse.encode) (hset.2 _) .idle with
    ⟨-, c₁, j, hreturns, hdecodes, hgrown, hbuffer, hle⟩ | ⟨hbad, -⟩
  · have hreallocs := hgrown.reallocs
    have hsize : c₁.bufferSize = 10 * 2 ^ c₁.reallocs := by
      rw [hgrown.bufferSize, hreallocs, hs.bufferSize, pow_add, mul_assoc]
    have hone : 1 ≤ c₁.reallocs := by
      by_contra hzero
      have hlen : okResponse.encode.length = 14 := by decide
      rw [← hgrown.bufferSize, hsize, show c₁.reallocs = 0 by omega] at hle
      omega
    obtain ⟨h₂, hserved₂⟩ := served_get henv hserved.waiting hserved.running hkey hstored
      (hget.1 (Request.line (getLine key hkey)).encode)
    rw [← keyLine_get hkey] at hserved₂
    rcases @recv_cases heap _ (@valueResponse_sendable R _ key v) c₁ hbuffer
        (by rw [hsize]; positivity) (getCuts.down _) (hget.2 _) .idle with
      ⟨-, c₂, j₂, hreturns₂, hdecodes₂, -⟩ | ⟨hbad, -⟩
    · refine ⟨⟨h₁, c₁⟩, ⟨h₂, c₂⟩, ⟨hserved.served, hserved.waiting, ?_⟩, ?_,
        ⟨hserved₂.served, hserved₂.waiting, ?_⟩, getResult_decimal hdecodes₂⟩
      · rw [hserved.written]
        exact hreturns
      · rw [setSuccess, code_ok rfl hdecodes]
        decide
      · rw [hserved₂.written]
        exact hreturns₂
    · exact absurd (sound_valueResponse hgrant hsize hone key v) hbad
  · exact absurd hsound hbad

end Connections

/-- A connection to a server with an empty table. -/
def newConnection : Connection ℚ where
  handler := Handler.start (hashTableCreate ℚ 1 Nat.one_pos) 1
  client := clientOf 10

theorem newConnection_ready : newConnection.Ready := ⟨rfl, rfl, rfl, rfl⟩

/-- Everything arrives at once, in both directions. -/
def wholeCuts : Cuts where
  up := cutWhole
  down := cutWhole

theorem wholeCuts_valid : wholeCuts.Valid := ⟨cutWhole_cut, cutWhole_cut⟩

end Memuncached.Client
