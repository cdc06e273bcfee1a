import Memuncached.Client.Library

/-!
# One call of the library

Each call of the library as an exchange with the server: the request it prints,
what the server answers, and what the call makes of the answer.

* `getResult_value`, `numberResult_value`, `verResult_version`: the result of a
  call behind the response that carries a value.
* `Invocation.realised`: a call is the same call on the server's table.
-/

namespace Memuncached.Client

open Segments Server

/-! ## Results -/

section Results

variable {R : Type} [CacheValueReal R] {client : MemuncachedClient}

/-- The terminator a call puts behind the body is there already. -/
theorem terminateBody_of_decodes {r : Response} (h : Decodes r client) :
    client.terminateBody = some client := by
  obtain ⟨pre, tail, hoff, hbuffer⟩ := exists_of_bytesAt h.trailer
  have hlen : (pre ++ r.body).length = pre.length + client.response.bodySize := by
    rw [List.length_append, h.bodySize]
  have hsplit : client.buffer = (pre ++ r.body) ++ 0 :: (crlf ++ tail) := by
    rw [hbuffer, bodyText]
    simp
  have hset : client.buffer.set (pre.length + client.response.bodySize) 0 = client.buffer := by
    rw [← hlen, hsplit, set_append_length]
  have hlt : pre.length + client.response.bodySize < client.buffer.length := by
    rw [← hlen, hsplit]
    simp
  simp only [MemuncachedClient.terminateBody, hoff, Option.bind_eq_bind, Option.bind_some,
    if_pos hlt, hset]
  rfl

theorem textAt_of_decodes {r : Response} (h : Decodes r client) (hnul : (0 : Byte) ∉ r.body) :
    client.textAt client.response.body = some r.body := textAt_of_bytesAt hnul h.trailer

/-- A response whose code is not 200. -/
theorem code_failed {r : Response} (h : Decodes r client) (hr : digitsVal r.code ≠ 200)
    (ok : Bool) : (ok && client.response.code == 200) = false := by
  have hcode : client.response.code ≠ 200 := by
    rw [h.code]
    exact_mod_cast hr
  rw [beq_false_of_ne hcode, Bool.and_false]

theorem bodyType_eq {v : CacheValue R} (hv : v.WellFormed) (h : Decodes (valueResponse v) client) :
    client.response.bodyType = Int8.ofInt v.type.toNat := by
  apply Int8.toInt_inj.mp
  rw [h.bodyType]
  show (v.type.toNat : ℤ) = _
  rcases hv with ⟨ht, -⟩ | ⟨ht, -⟩ | ⟨ht, -⟩
  · rw [ht]
    decide
  · rw [ht]
    decide
  · rw [ht]
    decide

/-- What the library relies on of `%lf` and `atof`: a number is printed as a
    word, and a C string ends with its NUL. -/
structure RealsPrint (R : Type) [CacheValueReal R] : Prop where
  word : ∀ v : R, Word (CacheValueReal.fmtLf v)
  atof : ∀ s rest : List Byte, (0 : Byte) ∉ s →
    (CacheValueReal.atof (s ++ 0 :: rest) : R) = CacheValueReal.atof s

theorem zero_notMem_fmtD (v : ℤ) : (0 : Byte) ∉ fmtD v := fun h => (not_sep_of_mem_fmtD h).1 rfl

theorem atoll_fmtD_nil (v : Int64) : atoll (fmtD v.toInt) = v := by
  have happ := @atoll_fmtD v [] (by rintro b ⟨⟩)
  rwa [List.append_nil] at happ

/-- The result of GET and DEL behind a value. -/
theorem getResult_value (hreals : RealsPrint R) {v : CacheValue R} (hv : v.WellFormed)
    (h : Decodes (valueResponse v) client) :
    getResult true client = some (foundResult (some v)) := by
  have hcode := code_ok rfl h
  have htype := bodyType_eq hv h
  have hbody : (valueResponse v).body = valueText v := rfl
  rw [getResult, hcode, if_pos (by decide), htype, foundResult, resultOf]
  rcases hv with ⟨ht, ⟨d, hd⟩, -⟩ | ⟨ht, ⟨x, hx⟩, -⟩ | ⟨ht, bytes, hbytes, -⟩
  · have htext : valueText v = fmtD d.toInt := by
      rw [valueText, if_pos ht, hd]
      rfl
    have hat := textAt_of_decodes h (by rw [hbody, htext]; exact zero_notMem_fmtD _)
    rw [hat, hbody, htext, ht, hd]
    simp only [Option.map_some, atoll_fmtD_nil, readBack]
    rfl
  · have htext : valueText v = CacheValueReal.fmtLf x := by
      rw [valueText, ht, hx]
      rfl
    have hat := textAt_of_decodes h
      (by rw [hbody, htext]; exact fun hmem => (hreals.word x).ne_zero 0 hmem rfl)
    rw [hat, hbody, htext, ht, hx]
    rfl
  · have htext : valueText v = bytes := by
      rw [valueText, ht, hbytes]
      rfl
    rw [h.body, hbody, htext, ht, hbytes]
    rfl

/-- The result of INC and DEC behind a number. -/
theorem numberResult_value (hreals : RealsPrint R) {v : CacheValue R} (hv : v.WellFormed)
    (hs : v.type ≠ cacheValueString) (h : Decodes (valueResponse v) client) :
    numberResult true client = some (countedResult (some v), client) := by
  have hcode := code_ok rfl h
  have htype := bodyType_eq hv h
  have hbody : (valueResponse v).body = valueText v := rfl
  rw [numberResult, hcode, if_pos (by decide), terminateBody_of_decodes h]
  simp only [Option.bind_eq_bind, Option.bind_some, htype, countedResult, resultOf]
  rcases hv with ⟨ht, ⟨d, hd⟩, -⟩ | ⟨ht, ⟨x, hx⟩, -⟩ | ⟨ht, -⟩
  · have htext : valueText v = fmtD d.toInt := by
      rw [valueText, if_pos ht, hd]
      rfl
    have hat := textAt_of_decodes h (by rw [hbody, htext]; exact zero_notMem_fmtD _)
    rw [hat, hbody, htext, ht, hd]
    simp only [Option.bind_some, atoll_fmtD_nil, readBack]
    rfl
  · have htext : valueText v = CacheValueReal.fmtLf x := by
      rw [valueText, ht, hx]
      rfl
    have hat := textAt_of_decodes h
      (by rw [hbody, htext]; exact fun hmem => (hreals.word x).ne_zero 0 hmem rfl)
    rw [hat, hbody, htext, ht, hx]
    rfl
  · exact absurd ht hs

/-- The result of VER. -/
theorem verResult_version (h : Decodes (successResponse (ascii "1.0")) client) :
    verResult true client = some ((true, { version := ascii "1.0" ++ [0, 0] }), client) := by
  have hcode := code_ok rfl h
  have hat := textAt_of_decodes h (by decide)
  rw [verResult, hcode, if_pos (by decide), terminateBody_of_decodes h]
  simp only [Option.bind_eq_bind, Option.bind_some]
  rw [hat]
  rfl

/-- The results of the calls behind a response whose code is not 200. -/
theorem getResult_failed {r : Response} (h : Decodes r client) (hr : digitsVal r.code ≠ 200) :
    getResult true client = some (foundResult (none : Option (CacheValue R))) := by
  rw [getResult, code_failed h hr]
  rfl

theorem numberResult_failed {r : Response} (h : Decodes r client) (hr : digitsVal r.code ≠ 200) :
    numberResult true client = some (countedResult (none : Option (CacheValue R)), client) := by
  rw [numberResult, code_failed h hr]
  rfl

theorem setSuccess_ok {r : Response} (h : Decodes r client) (hr : r.code = ascii "200") :
    setSuccess true client = true := by
  rw [setSuccess, code_ok hr h]
  rfl

theorem setSuccess_failed {r : Response} (h : Decodes r client) (hr : digitsVal r.code ≠ 200) :
    setSuccess true client = false := code_failed h hr true

end Results

/-! ## Requests -/

/-- A command word that is not ADD or SET, and its arguments. -/
def lineOf (cmd : List Byte) (args : List (List Byte)) (hcmd : Word cmd)
    (hadd : commandWord cmd ≠ some .add) (hset : commandWord cmd ≠ some .set)
    (hargs : ∀ w ∈ args, Word w) : LineRequest where
  words := cmd :: args
  ne_nil := List.cons_ne_nil _ _
  word_words := List.forall_mem_cons.mpr ⟨hcmd, hargs⟩
  not_add := by
    rintro cmd' ⟨⟩
    exact hadd
  not_set := by
    rintro cmd' ⟨⟩
    exact hset

theorem joinWords_cons (w : List Byte) (ws : List (List Byte)) :
    joinWords (w :: ws) = w ++ ws.flatMap fun arg => 32 :: arg := by
  induction ws generalizing w with
  | nil => simp [joinWords]
  | cons w' ws ih => simp [joinWords, ih]

/-- A line that the library prints. -/
theorem argsLine_eq (cmd key : List Byte) (args : List (List Byte)) :
    argsLine cmd key args = headerLine (cmd :: key :: args) := by
  rw [headerLine, joinWords_cons, argsLine]
  simp

theorem keyLine_eq (cmd key : List Byte) : keyLine cmd key = headerLine [cmd, key] := by
  rw [headerLine, joinWords_cons, keyLine]
  simp

theorem encode_line (l : LineRequest) : (Request.line l).encode = headerLine l.words :=
  List.append_nil _

/-- A line that arrives alone is not spoiled. -/
theorem cleanAt_line (l : LineRequest) {segs : List (List Byte)}
    (hcut : Cut segs (Request.line l).encode) :
    (Request.line l).CleanAt (spill connectionRecvLength segs (Request.line l).header.length) := by
  have hle := spill_le connectionRecvLength segs (headerLine l.words).length
  rw [hcut.flatten, encode_line, Nat.sub_self, Nat.le_zero] at hle
  exact hle

theorem word_fmtD (v : ℤ) : Word (fmtD v) where
  ne_nil := by
    unfold fmtD
    split_ifs
    · exact List.cons_ne_nil _ _
    · exact decimalDigits_ne_nil _
  ne_zero b hb := (not_sep_of_mem_fmtD hb).1
  not_sep b hb := (not_sep_of_mem_fmtD hb).2.1

section Requests

variable {R : Type} [CacheValueReal R]

/-- The request of `__memuncached_set` and `__memuncached_add`. -/
def storeRequest (cmd key : List Byte) (data : StoreData R)
    (hcommand : commandWord cmd = some .add ∨ commandWord cmd = some .set) (hcmd : Word cmd)
    (hkey : Word key) : StoreRequest where
  cmd := cmd
  key := key
  type := fmtD data.type
  length := fmtD data.text.length
  payload := data.text
  command := hcommand
  word_cmd := hcmd
  word_key := hkey
  word_type := by
    rw [fmtD_natCast]
    exact word_decimalDigits _
  word_length := by
    rw [fmtD_natCast]
    exact word_decimalDigits _
  type_positive := by
    rw [fmtD_natCast]
    exact isPositiveDecimal_decimalDigits _
  length_positive := by
    rw [fmtD_natCast]
    exact isPositiveDecimal_decimalDigits _
  length_eq := by rw [fmtD_natCast, decimalValue_decimalDigits]

section Store

variable {cmd key : List Byte} {data : StoreData R}
  {hcommand : commandWord cmd = some .add ∨ commandWord cmd = some .set} {hcmd : Word cmd}
  {hkey : Word key}

theorem encode_storeRequest :
    storeLines cmd key data =
      (Request.store (storeRequest cmd key data hcommand hcmd hkey)).encode := by
  simp [storeLines, Request.encode, Request.header, Request.body, StoreRequest.header,
    StoreRequest.body, StoreRequest.words, headerLine, joinWords, storeRequest]

/-- The server stores the value of the data. -/
theorem value_storeRequest (hreals : RealsPrint R) :
    (storeRequest cmd key data hcommand hcmd hkey).value = some (data.value key) := by
  have htype : (fmtD data.type).headD 0 - 48 = (data.value key).type := by
    cases data with
    | decimal v =>
      show (fmtD 0).headD 0 - 48 = cacheValueDecimal
      decide
    | real v =>
      show (fmtD 1).headD 0 - 48 = cacheValueReal
      decide
    | string bytes =>
      show (fmtD 2).headD 0 - 48 = cacheValueString
      decide
  rw [StoreRequest.value]
  show setResult key ((fmtD data.type).headD 0 - 48) data.text.length (data.text ++ [0, 0]) = _
  rw [htype]
  cases data with
  | decimal v =>
    have hatoll : atoll (fmtD v.toInt ++ [0, 0]) = v := by
      apply atoll_fmtD
      rintro b ⟨⟩
      rfl
    simp only [StoreData.value, StoreData.text, setResult, if_pos, hatoll]
  | real v =>
    have hatof := hreals.atof (CacheValueReal.fmtLf v) [0]
      fun hmem => (hreals.word v).ne_zero 0 hmem rfl
    have hne : cacheValueReal ≠ cacheValueDecimal := by decide
    simp only [StoreData.value, StoreData.text, setResult, if_neg hne, if_true, hatof]
  | string bytes =>
    have hne : cacheValueString ≠ cacheValueDecimal := by decide
    have hne' : cacheValueString ≠ cacheValueReal := by decide
    simp only [StoreData.value, StoreData.text, setResult, if_neg hne, if_neg hne', if_true,
      Int.toNat_natCast, List.take_left]

end Store

/-! ## Short responses -/

/-- A response that the client's buffer grows for at most five times beyond
    its start, and in whose header at most twice. -/
structure ShortResponse (res : Response) : Prop where
  sendable : Sendable res
  header : headerLen res ≤ 22
  length : res.encode.length ≤ 2 ^ 30

omit [CacheValueReal R] in
theorem shortResponse_plain {res : Response} (hres : res.WellFormed) (htype : res.type = none)
    (hdescription : res.description.length ≤ 11) (hbody : res.body.length < 100) :
    ShortResponse res := by
  have hdigits : (decimalDigits res.body.length).length ≤ 2 := length_decimalDigits_le hbody
  have hheader : headerLen res ≤ 22 := by
    simp only [headerLen, statusLen, statusText, lengthText, htype, encodeType, crlf,
      List.length_append, List.length_cons, List.length_nil, hres.code_length]
    omega
  have hlength : res.encode.length ≤ 2 ^ 30 := by
    rw [length_encode]
    omega
  refine ⟨⟨hres, ?_, ?_⟩, hheader, hlength⟩
  · intro t ht
    rw [htype] at ht
    cases ht
  · unfold intMax
    omega

theorem shortResponse_value {v : CacheValue R} (hv : v.WellFormed)
    (hlen : (valueText v).length ≤ 2 ^ 29) : ShortResponse (valueResponse v) := by
  have htype : v.type.toNat < 3 := by
    rcases hv with ⟨ht, -⟩ | ⟨ht, -⟩ | ⟨ht, -⟩ <;> rw [ht] <;> decide
  have hbody : (valueResponse v).body = valueText v := rfl
  have hdigits : (decimalDigits (valueText v).length).length ≤ 9 :=
    length_decimalDigits_le (by norm_num at hlen ⊢; omega)
  have hone : (decimalDigits v.type.toNat).length ≤ 1 := length_decimalDigits_le (by omega)
  have hheader : headerLen (valueResponse v) ≤ 22 := by
    have hstatus : statusLen (valueResponse v) = 8 := rfl
    have htyped : (valueResponse v).type = some v.type.toNat := rfl
    simp only [headerLen, hstatus, lengthText, htyped, hbody, encodeType, crlf, List.length_append,
      List.length_cons, List.length_nil]
    omega
  have hlength : (valueResponse v).encode.length ≤ 2 ^ 30 := by
    rw [length_encode, hbody]
    omega
  refine ⟨⟨valueResponse_wellFormed v, ?_, ?_⟩, hheader, hlength⟩
  · rintro t ⟨⟩
    omega
  · unfold intMax
    omega

omit [CacheValueReal R] in
theorem shortResponse_success {data : List Byte} (hdata : data.length < 100) :
    ShortResponse (successResponse data) :=
  shortResponse_plain ⟨rfl, List.all_eq_true.mp (by decide : (ascii "200").all isDigit = true),
    (by decide : (10 : Byte) ∉ ascii "OK")⟩ rfl (by decide : (ascii "OK").length ≤ 11) hdata

omit [CacheValueReal R] in
theorem shortResponse_badRequest {message : List Byte} (hmessage : message.length < 100) :
    ShortResponse (badRequestResponse message) :=
  shortResponse_plain ⟨rfl, List.all_eq_true.mp (by decide : (ascii "400").all isDigit = true),
    (by decide : (10 : Byte) ∉ ascii "BAD REQUEST")⟩ rfl
    (by decide : (ascii "BAD REQUEST").length ≤ 11) hmessage

omit [CacheValueReal R] in
theorem shortResponse_notFound : ShortResponse notFoundResponse :=
  shortResponse_plain ⟨rfl, List.all_eq_true.mp (by decide : (ascii "404").all isDigit = true),
    (by decide : (10 : Byte) ∉ ascii "NOT FOUND")⟩ rfl (by decide) (by decide)

omit [CacheValueReal R] in
theorem shortResponse_keyExists : ShortResponse keyExistsResponse :=
  shortResponse_plain ⟨rfl, List.all_eq_true.mp (by decide : (ascii "409").all isDigit = true),
    (by decide : (10 : Byte) ∉ ascii "KEY EXISTS")⟩ rfl (by decide) (by decide)

/-! ## One call -/

/-- The string is not spoiled by the segments its request arrives in. -/
def StoreData.Harmless (line : List Byte) (segs : List (List Byte)) : StoreData R → Prop
  | decimal _ => True
  | real _ => True
  | string bytes =>
    Intact (bytes.take (spill connectionRecvLength segs (line.length - (bytes.length + 2))))

namespace Invocation

/-- What the caller has to see to. -/
def Valid (defaultDouble : R) : Invocation R → Prop
  | stt => True
  | ver => True
  | inc key args => Word key ∧ args.Valid defaultDouble ∧ ∃ reals, args = .real reals
  | dec key args => Word key ∧ args.Valid defaultDouble
  | del key => Word key
  | get key => Word key
  | set key data => Word key ∧ (data.text.length : ℤ) + 2 ≤ intMax
  | add key data => Word key ∧ (data.text.length : ℤ) + 2 ≤ intMax

/-- The network does not spoil the request. -/
def Harmless (segs : List (List Byte)) : Invocation R → Prop
  | set key data => data.Harmless (storeLines (ascii "SET") key data) segs
  | add key data => data.Harmless (storeLines (ascii "ADD") key data) segs
  | _ => True

/-- The value that is sent back has at most `2 ^ 29` bytes. -/
def Fits (clientCount : ℕ) (table : HashTable R) : Invocation R → Prop
  | stt => (clientCount : ℤ) ≤ intMax ∧ (table.count : ℤ) ≤ intMax
  | inc key args => ¬ Refused args.texts →
    ∀ v ∈ hashTableGet ((inc key args).exec clientCount table).2 key,
      (valueText v).length ≤ 2 ^ 29
  | dec key args => ¬ Refused args.texts →
    ∀ v ∈ hashTableGet ((dec key args).exec clientCount table).2 key,
      (valueText v).length ≤ 2 ^ 29
  | del key => ∀ v ∈ hashTableGet table key, (valueText v).length ≤ 2 ^ 29
  | get key => ∀ v ∈ hashTableGet table key, (valueText v).length ≤ 2 ^ 29
  | _ => True

end Invocation

/-- The call is carried out by sending `req` and reading `res`. -/
structure Realised [DecidableEq R] (defaultDouble : R) (clientCount : ℕ) (table : HashTable R)
    (inv : Invocation R) (req : Request) (res : Response) : Prop where
  request : inv.request defaultDouble = some (some req.encode)
  opens : ¬ req.Closes
  lengthOk : req.LengthOk
  cleanAt : ∀ segs, Cut segs req.encode → inv.Harmless segs →
    req.CleanAt (spill connectionRecvLength segs req.header.length)
  answered : req.Answered table
  response : req.response clientCount table = some res
  performs : req.perform table = (inv.exec clientCount table).2
  short : ShortResponse res
  finish : ∀ client, Decodes res client →
    inv.finish client = some ((inv.exec clientCount table).1, client)

section Realised

variable {clientCount : ℕ} {table : HashTable R} {key : List Byte}

omit [CacheValueReal R] in
theorem fits_of_ne {call : Call} (h : ∀ key, call ≠ .get key ∧ call ≠ .del key) :
    call.Fits table := by
  rintro key v (hkey | hkey)
  · exact absurd hkey (h key).1
  · exact absurd hkey (h key).2

omit [CacheValueReal R] in
theorem length_sttText (hclients : (clientCount : ℤ) ≤ intMax)
    (hkeys : (table.count : ℤ) ≤ intMax) : (sttText clientCount table).length < 100 := by
  have hclabel : (ascii "Client-Count: ").length = 14 := rfl
  have hklabel : (ascii "Key-Count: ").length = 11 := rfl
  have hc := length_count hclients
  have hk := length_count hkeys
  rw [sttText_eq hclients hkeys]
  simp only [List.length_append, List.length_cons, hclabel, hklabel]
  omega

/-- What GET and DEL find is sent back. -/
theorem shortResponse_found (htable : Reachable table)
    (hfits : ∀ v ∈ hashTableGet table key, (valueText v).length ≤ 2 ^ 29) :
    ShortResponse (foundResponse (hashTableGet table key)) := by
  cases hget : hashTableGet table key with
  | none => exact shortResponse_notFound
  | some v => exact shortResponse_value (htable.wellFormed _ v hget) (hfits v hget)

theorem getResult_found (hreals : RealsPrint R) (htable : Reachable table)
    {client : MemuncachedClient}
    (h : Decodes (foundResponse (hashTableGet table key)) client) :
    getResult true client = some (foundResult (hashTableGet table key)) := by
  cases hget : hashTableGet table key with
  | none =>
    rw [hget] at h
    have hcode : digitsVal notFoundResponse.code ≠ 200 := by decide
    exact getResult_failed h hcode
  | some v =>
    rw [hget] at h
    exact getResult_value hreals (htable.wellFormed _ v hget) h

/-- A value of which not too many bytes are sent fits into its reply. -/
theorem replyFits_of_short {v : CacheValue R} (hv : v.WellFormed)
    (hlen : (valueText v).length ≤ 2 ^ 29) : ReplyFits v := by
  intro hs
  have hbytes : (valueText v).length = v.length := by
    rcases hv with ⟨ht, -⟩ | ⟨ht, -⟩ | ⟨ht, bytes, hval, hlength⟩
    · exact absurd (hs.symm.trans ht) (by decide)
    · exact absurd (hs.symm.trans ht) (by decide)
    · rw [valueText, ht, hval]
      exact hlength
  rw [hbytes] at hlen
  have hdigits : (fmtD v.length).length ≤ 9 := by
    rw [fmtD_natCast]
    exact length_decimalDigits_le (by norm_num at hlen ⊢; omega)
  have hheader : (stringReplyHeader v.type v.length).length = 12 + (fmtD v.length).length := by
    rw [hs, stringReplyHeader]
    simp only [List.length_append, List.length_cons, crlf, List.length_nil]
    rw [show response200Ok.length = 6 from rfl,
      show (fmtD cacheValueString.toNat).length = 1 by decide]
    omega
  have hle : stringReplyLen v.type v.length ≤ 2 ^ 30 := by
    rw [stringReplyLen, hheader]
    norm_num at hlen ⊢
    omega
  unfold intMax
  norm_num at hle ⊢
  omega

variable [DecidableEq R] {defaultDouble : R}

/-- A call that prints a line. -/
theorem realised_line {inv : Invocation R} {res : Response} (l : LineRequest) {call : Call}
    (hcall : lineCall l.words = call) (hbye : call ≠ .bye)
    (hrequest : inv.request defaultDouble = some (some (headerLine l.words)))
    (hfits : call.Fits table) (hres : call.response clientCount table = some res)
    (hperforms : Request.performCall table call = (inv.exec clientCount table).2)
    (hshort : ShortResponse res)
    (hfinish : ∀ client, Decodes res client →
      inv.finish client = some ((inv.exec clientCount table).1, client)) :
    Realised defaultDouble clientCount table inv (.line l) res where
  request := by rw [encode_line]; exact hrequest
  opens := by
    show ¬ lineCall l.words = .bye
    rw [hcall]
    exact hbye
  lengthOk := trivial
  cleanAt _ hcut _ := cleanAt_line l hcut
  answered := by
    intro key hkey v hv
    rw [hcall] at hkey
    exact hfits key v hkey hv
  response := by
    show (lineCall l.words).response clientCount table = _
    rw [hcall]
    exact hres
  performs := by
    show Request.performCall table (lineCall l.words) = _
    rw [hcall]
    exact hperforms
  short := hshort
  finish := hfinish

theorem word_stt : Word (ascii "STT") := by decide

theorem word_ver : Word (ascii "VER") := by decide

theorem realised_stt (hfits : (Invocation.stt : Invocation R).Fits clientCount table) :
    ∃ req res, Realised defaultDouble clientCount table .stt req res := by
  have hcall : lineCall (lineOf (ascii "STT") [] word_stt (by decide) (by decide) (by simp)).words =
      .stt := rfl
  refine ⟨_, sttResponse clientCount table,
    realised_line _ hcall (by decide) rfl (fits_of_ne (by simp)) rfl rfl ?_ ?_⟩
  · exact shortResponse_success (length_sttText hfits.1 hfits.2)
  · intro client h
    have hparsed := sttParsed_of_decodes hfits.1 hfits.2 h
    show (sttResult true client).map _ = _
    rw [hparsed.result]
    rfl

theorem realised_ver :
    ∃ req res, Realised defaultDouble clientCount table .ver req res := by
  have hcall : lineCall (lineOf (ascii "VER") [] word_ver (by decide) (by decide) (by simp)).words =
      .ver := rfl
  exact ⟨_, successResponse (ascii "1.0"),
    realised_line _ hcall (by decide) rfl (fits_of_ne (by simp)) rfl rfl
      (shortResponse_success (by decide)) fun _ h => verResult_version h⟩

theorem realised_get (hreals : RealsPrint R) (htable : Reachable table) (hkey : Word key)
    (hfits : (Invocation.get key : Invocation R).Fits clientCount table) :
    ∃ req res, Realised defaultDouble clientCount table (.get key) req res := by
  have hword : commandWord (ascii "GET") = some .get := by decide
  refine ⟨_, foundResponse (hashTableGet table key),
    realised_line (getLine key hkey) (lineCall_get hkey) (by simp) ?_ ?_ rfl rfl
      (shortResponse_found htable hfits) ?_⟩
  · show some (some (keyLine (ascii "GET") key)) = _
    rw [keyLine_eq]
    rfl
  · rintro key' v (hkey' | hkey') hv
    · injection hkey' with hkey'
      rw [← hkey'] at hv
      exact replyFits_of_short (htable.wellFormed _ v hv) (hfits v hv)
    · cases hkey'
  · intro client h
    show (getResult true client).map _ = _
    rw [getResult_found hreals htable h]
    rfl

theorem word_del : Word (ascii "DEL") := by decide

/-- `DEL key\r\n`. -/
def delLine (key : List Byte) (hkey : Word key) : LineRequest :=
  lineOf (ascii "DEL") [key] word_del (by decide) (by decide) (by simpa using hkey)

theorem lineCall_del (hkey : Word key) : lineCall (delLine key hkey).words = .del key := by
  have hword : commandWord (ascii "DEL") = some .del := by decide
  simp [delLine, lineOf, lineCall, hword, keyCall]

theorem realised_del (hreals : RealsPrint R) (htable : Reachable table) (hkey : Word key)
    (hfits : (Invocation.del key : Invocation R).Fits clientCount table) :
    ∃ req res, Realised defaultDouble clientCount table (.del key) req res := by
  have hanswer : answer (hashTableGet table key) ≠ none := by
    have hsent := @answer_eq R _ (hashTableGet table key) fun x hx =>
      ⟨htable.wellFormed _ x hx, replyFits_of_short (htable.wellFormed _ x hx) (hfits x hx)⟩
    simp [hsent]
  refine ⟨_, foundResponse (hashTableGet table key),
    realised_line (delLine key hkey) (lineCall_del hkey) (by simp) ?_ ?_ rfl ?_
      (shortResponse_found htable hfits) ?_⟩
  · show some (some (keyLine (ascii "DEL") key)) = _
    rw [keyLine_eq]
    rfl
  · rintro key' v (hkey' | hkey') hv
    · cases hkey'
    · injection hkey' with hkey'
      rw [← hkey'] at hv
      exact replyFits_of_short (htable.wellFormed _ v hv) (hfits v hv)
  · show (TableProg.exec (memuncachedDel key) table).2 = _
    rw [exec_memuncachedDel]
    exact if_neg hanswer
  · intro client h
    show (getResult true client).map _ = _
    rw [getResult_found hreals htable h]
    rfl

/-! ## INC and DEC -/

omit [DecidableEq R] in
theorem word_texts (hreals : RealsPrint R) (args : OptArgs R) : ∀ w ∈ args.texts, Word w := by
  cases args with
  | decimal args =>
    intro w hw
    obtain ⟨v, -, rfl⟩ := List.mem_map.mp hw
    exact word_fmtD v.toInt
  | real args =>
    intro w hw
    obtain ⟨v, -, rfl⟩ := List.mem_map.mp hw
    exact hreals.word v

/-- A counter command that is refused, or carried out. -/
theorem counterCall_cases (call : List Byte → Option (List Byte) → Option (List Byte) → Server.Call)
    (key : List Byte) (texts : List (List Byte)) :
    (Refused texts ∧ ∃ message, message.length < 100 ∧
      counterCall call (some key) texts[0]? texts[1]? = .badRequest message) ∨
    (¬ Refused texts ∧
      counterCall call (some key) texts[0]? texts[1]? = call key texts[0]? texts[1]?) := by
  unfold counterCall Refused
  dsimp only
  split_ifs with hoffset hinitial
  · obtain ⟨offset, hmem, h⟩ := (Option.any_eq_true _ _).mp hoffset
    exact Or.inl ⟨Or.inl ⟨offset, hmem, h⟩, _, by decide, rfl⟩
  · obtain ⟨initial, hmem, h⟩ := (Option.any_eq_true _ _).mp hinitial
    exact Or.inl ⟨Or.inr ⟨initial, hmem, by simpa using h⟩, _, by decide, rfl⟩
  · refine Or.inr ⟨?_, rfl⟩
    rintro (⟨offset, hmem, h⟩ | ⟨initial, hmem, h⟩)
    · exact hoffset ((Option.any_eq_true _ _).mpr ⟨offset, hmem, h⟩)
    · exact hinitial ((Option.any_eq_true _ _).mpr ⟨initial, hmem, by simpa using h⟩)

omit [DecidableEq R] in
/-- What comes of a counter command that is sent: the response to its call, and
    the result it leads to. -/
theorem counter_realises (hreals : RealsPrint R) (htable : Reachable table)
    {command : List Byte → Option (List Byte) → Option (List Byte) →
      TableProg R (Option (List (List Byte)))}
    (hvalid : ∀ offset initial, ValidCalls (command key offset initial))
    (hspec : ∀ offset initial, ∃ v, v.type ≠ cacheValueString ∧
      hashTableGet (TableProg.exec (command key offset initial) table).2 key = some v ∧
      (TableProg.exec (command key offset initial) table).1 = answer (some v))
    {call : List Byte → Option (List Byte) → Option (List Byte) → Server.Call}
    (hcall : ∀ offset initial, (call key offset initial).response clientCount table =
      some (foundResponse (hashTableGet (TableProg.exec (command key offset initial) table).2 key)))
    (hperform : ∀ offset initial, Request.performCall table (call key offset initial) =
      (TableProg.exec (command key offset initial) table).2)
    (hne : ∀ key' offset initial, call key offset initial ≠ .bye ∧
      call key offset initial ≠ .get key' ∧ call key offset initial ≠ .del key')
    (texts : List (List Byte))
    (hfits : ¬ Refused texts → ∀ v ∈ hashTableGet (countOn command key texts table).2 key,
      (valueText v).length ≤ 2 ^ 29) :
    ∃ made res, counterCall call (some key) texts[0]? texts[1]? = made ∧ made ≠ .bye ∧
      made.Fits table ∧ made.response clientCount table = some res ∧
      Request.performCall table made = (countOn command key texts table).2 ∧ ShortResponse res ∧
      ∀ client, Decodes res client →
        numberResult true client = some ((countOn command key texts table).1, client) := by
  rcases counterCall_cases call key texts with ⟨hrefused, message, hshort, hmade⟩ |
    ⟨hrefused, hmade⟩
  · refine ⟨_, badRequestResponse message, hmade, by simp, fits_of_ne (by simp), rfl, ?_,
      shortResponse_badRequest hshort, fun client h => ?_⟩
    · rw [countOn, if_pos hrefused]
      rfl
    · have hcode : digitsVal (badRequestResponse message).code ≠ 200 := by
        show digitsVal (ascii "400") ≠ 200
        decide
      rw [countOn, if_pos hrefused]
      exact numberResult_failed h hcode
  · have hcount : countOn command key texts table =
        (countedResult (hashTableGet
          (TableProg.exec (command key texts[0]? texts[1]?) table).2 key),
          (TableProg.exec (command key texts[0]? texts[1]?) table).2) := if_neg hrefused
    have hfits' := hfits hrefused
    rw [hcount] at hfits' ⊢
    obtain ⟨v, hs, hget, -⟩ := hspec texts[0]? texts[1]?
    have hwf := (Reachable.run (hvalid texts[0]? texts[1]?) htable).wellFormed _ v hget
    have hres := hcall texts[0]? texts[1]?
    rw [hget] at hres ⊢
    exact ⟨_, valueResponse v, hmade, (hne [] _ _).1, fits_of_ne fun key' => (hne key' _ _).2, hres,
      hperform _ _, shortResponse_value hwf (hfits' v hget),
      fun client h => numberResult_value hreals hwf hs h⟩

theorem word_inc : Word (ascii "INC") := by decide

theorem word_dec : Word (ascii "DEC") := by decide

theorem realised_inc (hreals : RealsPrint R) (htable : Reachable table) {args : OptArgs R}
    (hvalid : (Invocation.inc key args).Valid defaultDouble)
    (hfits : (Invocation.inc key args).Fits clientCount table) :
    ∃ req res, Realised defaultDouble clientCount table (.inc key args) req res := by
  obtain ⟨hkey, hargs, hreal⟩ := hvalid
  have hword : commandWord (ascii "INC") = some .inc := by decide
  obtain ⟨call, res, hmade, hbye, hcallFits, hres, hperforms, hshort, hfinish⟩ :=
    @counter_realises R _ clientCount table key hreals htable memuncachedInc
      (memuncachedInc_valid key) (fun o i => memuncachedInc_spec key o i table) .inc
      (fun _ _ => rfl) (fun _ _ => rfl) (by simp) args.texts hfits
  have hwords : ∀ w ∈ key :: args.texts, Word w :=
    List.forall_mem_cons.mpr ⟨hkey, word_texts hreals args⟩
  have hcall : lineCall (lineOf (ascii "INC") (key :: args.texts) word_inc (by decide) (by decide)
      hwords).words = call := by
    rw [← hmade]
    simp [lineOf, lineCall, hword]
  refine ⟨_, res, realised_line _ hcall hbye ?_ hcallFits hres hperforms hshort hfinish⟩
  show args.inc defaultDouble key = _
  rw [((requestsAgree_iff key hargs).mpr hreal).1, argsLine_eq]
  rfl

theorem realised_dec (hreals : RealsPrint R) (htable : Reachable table) {args : OptArgs R}
    (hvalid : (Invocation.dec key args).Valid defaultDouble)
    (hfits : (Invocation.dec key args).Fits clientCount table) :
    ∃ req res, Realised defaultDouble clientCount table (.dec key args) req res := by
  obtain ⟨hkey, hargs⟩ := hvalid
  have hword : commandWord (ascii "DEC") = some .dec := by decide
  obtain ⟨call, res, hmade, hbye, hcallFits, hres, hperforms, hshort, hfinish⟩ :=
    @counter_realises R _ clientCount table key hreals htable memuncachedDec
      (memuncachedDec_valid key) (fun o i => memuncachedDec_spec key o i table) .dec
      (fun _ _ => rfl) (fun _ _ => rfl) (by simp) args.texts hfits
  have hwords : ∀ w ∈ key :: args.texts, Word w :=
    List.forall_mem_cons.mpr ⟨hkey, word_texts hreals args⟩
  have hcall : lineCall (lineOf (ascii "DEC") (key :: args.texts) word_dec (by decide) (by decide)
      hwords).words = call := by
    rw [← hmade]
    simp [lineOf, lineCall, hword]
  refine ⟨_, res, realised_line _ hcall hbye ?_ hcallFits hres hperforms hshort hfinish⟩
  show args.dec defaultDouble key = _
  rw [dec_eq key hargs, argsLine_eq]
  rfl

/-! ## SET and ADD -/

omit [CacheValueReal R] [DecidableEq R] in
/-- Part of a word. -/
theorem intact_take_word {w : List Byte} (hw : Word w) (k : ℕ) : Intact (w.take k) where
  head b hb := hw.not_sep b (List.mem_of_mem_take (List.mem_of_mem_head? hb))
  last b hb := by
    have hsep := hw.not_sep b (List.mem_of_mem_take (List.mem_of_mem_getLast? hb))
    by_contra hnewline
    rw [Bool.not_eq_false] at hnewline
    rw [isSep_of_isNewline hnewline] at hsep
    cases hsep

omit [DecidableEq R] in
/-- A number is not spoiled, a string is not when the segments are harmless. -/
theorem cleanAt_storeRequest (hreals : RealsPrint R) {cmd : List Byte} {data : StoreData R}
    (hcommand : commandWord cmd = some .add ∨ commandWord cmd = some .set) (hcmd : Word cmd)
    (hkey : Word key) (hlen : (data.text.length : ℤ) + 2 ≤ intMax) {segs : List (List Byte)}
    (hcut : Cut segs (Request.store (storeRequest cmd key data hcommand hcmd hkey)).encode)
    (hharmless : data.Harmless (storeLines cmd key data) segs) :
    (storeRequest cmd key data hcommand hcmd hkey).CleanAt
      (spill connectionRecvLength segs
        (storeRequest cmd key data hcommand hcmd hkey).header.length) := by
  set r := storeRequest cmd key data hcommand hcmd hkey with hr
  have hbody : (Request.store r).body.length = data.text.length + 2 := r.length_body
  have hheader : (Request.store r).header.length = r.header.length := rfl
  have hencode : (Request.store r).encode.length = r.header.length + (data.text.length + 2) := by
    rw [Request.encode, List.length_append, hbody, hheader]
  constructor
  case length_le => exact hlen
  case spill_le =>
    have hle := spill_le connectionRecvLength segs r.header.length
    rw [hcut.flatten, hencode] at hle
    show _ ≤ data.text.length + 2
    omega
  case intact =>
    show Intact (data.text.take _)
    cases data with
    | decimal v => exact intact_take_word (word_fmtD v.toInt) _
    | real v => exact intact_take_word (hreals.word v) _
    | string bytes =>
      have hline : (storeLines cmd key (.string bytes : StoreData R)).length -
          (bytes.length + 2) = r.header.length := by
        rw [@encode_storeRequest R _ cmd key _ hcommand hcmd hkey, ← hr, hencode]
        show r.header.length + (bytes.length + 2) - (bytes.length + 2) = _
        omega
      rw [← hline]
      exact hharmless

/-- A call that stores. -/
theorem realised_store (hreals : RealsPrint R) (htable : Reachable table) {cmd : List Byte}
    {data : StoreData R} {inv : Invocation R}
    (hcommand : commandWord cmd = some .add ∨ commandWord cmd = some .set) (hcmd : Word cmd)
    (hkey : Word key) (hlen : (data.text.length : ℤ) + 2 ≤ intMax)
    (hrequest : inv.request defaultDouble = some (some (storeLines cmd key data)))
    (hharmless : ∀ segs, inv.Harmless segs → data.Harmless (storeLines cmd key data) segs)
    (hperforms : (inv.exec clientCount table).2 =
      if (commandWord cmd == some .set) = true ∨ hashTableGet table key = none then
        data.storeIn key table else table)
    (hfinish : ∀ client, setSuccess true client =
        decide ((commandWord cmd == some .set) = true ∨ hashTableGet table key = none) →
      inv.finish client = some ((inv.exec clientCount table).1, client)) :
    ∃ req res, Realised defaultDouble clientCount table inv req res := by
  set r := storeRequest cmd key data hcommand hcmd hkey with hr
  have hvalue : r.value = some (data.value key) := value_storeRequest hreals
  have hresponse : r.response table =
      if (commandWord cmd == some .set) = true ∨ hashTableGet table key = none then
        successResponse [] else keyExistsResponse := by
    rw [StoreRequest.response, hvalue]
    rfl
  refine ⟨.store r, r.response table, ?_, fun h => h, hlen, fun segs hcut hsegs => ?_, trivial, rfl,
    ?_, ?_, fun client h => ?_⟩
  · rw [hrequest, @encode_storeRequest R _ cmd key data hcommand hcmd hkey]
  · exact cleanAt_storeRequest hreals hcommand hcmd hkey hlen hcut (hharmless segs hsegs)
  · show (r.perform table).2 = _
    rw [r.perform_eq htable.countOk, StoreRequest.leaves, hvalue, hperforms]
    rfl
  · rw [hresponse]
    split_ifs
    · exact shortResponse_success (by decide)
    · exact shortResponse_keyExists
  · apply hfinish client
    rw [hresponse] at h
    split_ifs at h with hstores
    · rw [setSuccess_ok h rfl, decide_eq_true hstores]
    · have hcode : digitsVal keyExistsResponse.code ≠ 200 := by decide
      rw [setSuccess_failed h hcode, decide_eq_false hstores]

theorem word_add : Word (ascii "ADD") := by decide

theorem commandWord_add :
    commandWord (ascii "ADD") = some .add ∨ commandWord (ascii "ADD") = some .set := by decide

/-- Every call of the library that its caller may make. -/
theorem Invocation.realised (hreals : RealsPrint R) (htable : Reachable table)
    {inv : Invocation R} (hvalid : inv.Valid defaultDouble) (hfits : inv.Fits clientCount table) :
    ∃ req res, Realised defaultDouble clientCount table inv req res := by
  cases inv with
  | stt => exact realised_stt hfits
  | ver => exact realised_ver
  | inc key args => exact realised_inc hreals htable hvalid hfits
  | dec key args => exact realised_dec hreals htable hvalid hfits
  | del key => exact realised_del hreals htable hvalid hfits
  | get key => exact realised_get hreals htable hvalid hfits
  | set key data =>
    have hset : (commandWord (ascii "SET") == some .set) = true := by decide
    refine realised_store hreals htable commandWord_set word_set hvalid.1 hvalid.2 rfl
      (fun _ h => h) (if_pos (Or.inl hset)).symm fun client hok => ?_
    rw [decide_eq_true (Or.inl hset)] at hok
    show some (setSuccess true client, client) = _
    rw [hok]
    rfl
  | add key data =>
    have hset : (commandWord (ascii "ADD") == some .set) = false := by decide
    refine realised_store hreals htable commandWord_add word_add hvalid.1 hvalid.2 rfl
      (fun _ h => h) ?_ fun client hok => ?_
    · cases hget : hashTableGet table key <;> simp [Invocation.exec, hget, hset]
    · show some (setSuccess true client, client) = _
      rw [hok]
      cases hget : hashTableGet table key <;> simp [Invocation.exec, hget, hset]

end Realised

end Requests

end Memuncached.Client
