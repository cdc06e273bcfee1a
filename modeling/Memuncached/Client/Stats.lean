import Memuncached.C.Search
import Memuncached.Client.SetGet

/-!
# The counters of STT

The server prints two labelled numbers, and `memuncached_stt` of the library
looks for the labels in the body of the response and reads the number behind
each. The body is not terminated for the searches, which go by its length; the
trailer of the response ends the second number.

* `sttParsed_of_decodes`: on the response of the server both searches succeed
  within its body and the numbers are the ones it printed.
* `stt_counters`: so it is behind every `memuncached_recv` that returns true.
-/

namespace Memuncached.Client

open Segments Server

/-! ## The library -/

/-- `memuncached_stt_result_t`. -/
structure SttResult where
  clientCount : ℤ
  keyCount : ℤ
  deriving DecidableEq, Repr

/-- `atoi(sstrstr(body, label, body_size) + skip)`; `none` for a search that
    returns NULL, and where a byte outside the buffer is read. -/
def sttCount (client : MemuncachedClient) (label : List Byte) (skip : ℕ) : Option ℤ := do
  let body ← client.offset client.response.body
  let i ← sstrstr (client.buffer.drop body) label client.response.bodySize
  atoiAt client.buffer (body + i + skip)

/-- What `memuncached_stt` returns behind `memuncached_recv`, and the result
    it leaves (libmemuncached.c, lines 230-241). -/
def sttResult (ok : Bool) (client : MemuncachedClient) : Option (Bool × SttResult) :=
  if (ok && client.response.code == 200) = true then do
    let clientCount ← sttCount client (ascii "Client-Count: ") 14
    let keyCount ← sttCount client (ascii "Key-Count: ") 11
    return (true, { clientCount := clientCount, keyCount := keyCount })
  else some (false, { clientCount := 0, keyCount := 0 })

/-! ## Specification -/

/-- The two texts that `memuncached_stt` searches for. -/
def sttLabels : List (List Byte) := [ascii "Client-Count: ", ascii "Key-Count: "]

/-- The search for a label succeeds and reads bytes of the body only. -/
structure SearchInside (client : MemuncachedClient) (body label : List Byte) : Prop where
  found : ∃ off i, client.offset client.response.body = some off ∧
    sstrstr (client.buffer.drop off) label client.response.bodySize = some i
  reads : ∀ off, client.offset client.response.body = some off →
    ∀ j ∈ sstrstrReads (client.buffer.drop off) label client.response.bodySize,
      j < body.length ∧ (client.buffer.drop off)[j]? = body[j]?

/-- `memuncached_stt` returns true with these counters. -/
structure SttParsed (client : MemuncachedClient) (body : List Byte) (clientCount keyCount : ℤ) :
    Prop where
  search : ∀ label ∈ sttLabels, SearchInside client body label
  result : sttResult true client =
    some (true, { clientCount := clientCount, keyCount := keyCount })

/-! ## The response -/

section Stt

variable {R : Type}

/-- The response to STT. -/
def sttResponse (clientCount : ℕ) (table : HashTable R) : Response where
  code := ascii "200"
  description := ascii "OK"
  type := none
  body := sttText clientCount table

theorem replySuccess_sttText (clientCount : ℕ) (table : HashTable R) :
    replySuccess (sttText clientCount table) = (sttResponse clientCount table).encode :=
  responseWrite_eq_encode (ascii "200") (ascii "OK") _

/-- A count up to `INT_MAX` is printed as it is. -/
theorem fmtD_count {n : ℕ} (h : (n : ℤ) ≤ intMax) : fmtD (toInt n) = decimalDigits n := by
  rw [toInt_of_range (by omega) h, fmtD_natCast]

theorem sttText_eq {clientCount : ℕ} {table : HashTable R} (hclients : (clientCount : ℤ) ≤ intMax)
    (hkeys : (table.count : ℤ) ≤ intMax) :
    sttText clientCount table =
      ascii "Client-Count: " ++ (decimalDigits clientCount ++
        10 :: (ascii "Key-Count: " ++ decimalDigits table.count)) := by
  rw [sttText, fmtD_count hclients, fmtD_count hkeys]
  simp only [List.append_assoc, List.cons_append]

/-- A count takes at most ten digits. -/
theorem length_count {n : ℕ} (h : (n : ℤ) ≤ intMax) : (decimalDigits n).length ≤ 10 := by
  apply length_decimalDigits_le
  unfold intMax at h
  norm_num
  omega

theorem sttResponse_sendable {clientCount : ℕ} {table : HashTable R}
    (hclients : (clientCount : ℤ) ≤ intMax) (hkeys : (table.count : ℤ) ≤ intMax) :
    Sendable (sttResponse clientCount table) where
  wellFormed := ⟨rfl, List.all_eq_true.mp (by decide : (ascii "200").all isDigit = true),
    (by decide : (10 : Byte) ∉ ascii "OK")⟩
  type := by rintro t ⟨⟩
  length := by
    have hbody : (sttResponse clientCount table).body.length ≤ 46 := by
      have hclabel : (ascii "Client-Count: ").length = 14 := rfl
      have hklabel : (ascii "Key-Count: ").length = 11 := rfl
      have hc := length_count hclients
      have hk := length_count hkeys
      show (sttText clientCount table).length ≤ 46
      rw [sttText_eq hclients hkeys]
      simp only [List.length_append, List.length_cons, hclabel, hklabel]
      omega
    have hdigits : (decimalDigits (sttResponse clientCount table).body.length).length ≤ 2 := by
      apply length_decimalDigits_le
      norm_num
      omega
    have hstatus : statusLen (sttResponse clientCount table) = 8 := rfl
    have htype : (sttResponse clientCount table).type = none := rfl
    rw [length_encode, headerLen, hstatus, lengthText, htype]
    simp only [encodeType, crlf, List.length_append, List.length_cons, List.length_nil]
    unfold intMax
    omega

/-! ## The searches -/

/-- A label with a number behind it in the body: the label is found and the
    number is read. -/
theorem sttCount_eq {client : MemuncachedClient} {pre before label label' rest : List Byte}
    {b c : Byte} {skip n : ℕ} (hoff : client.offset client.response.body = some pre.length)
    (hbuffer : client.buffer = pre ++ (before ++ (label ++ (decimalDigits n ++ c :: rest))))
    (hsize : before.length + label.length ≤ client.response.bodySize)
    (hlabel : label = b :: label') (hb : b ∉ before) (hskip : skip = label.length)
    (hc : isDigit c = false) (hn : (n : ℤ) ≤ intMax) :
    sstrstr (client.buffer.drop pre.length) label client.response.bodySize = some before.length ∧
      sttCount client label skip = some (n : ℤ) := by
  subst hlabel hskip
  have hfind : sstrstr (client.buffer.drop pre.length) (b :: label') client.response.bodySize =
      some before.length := by
    rw [hbuffer, List.drop_left]
    exact sstrstr_find hb hsize
  have hassoc : client.buffer =
      (pre ++ before ++ b :: label') ++ (decimalDigits n ++ c :: rest) := by
    rw [hbuffer]
    simp only [List.append_assoc]
  have hindex : pre.length + before.length + (b :: label').length =
      (pre ++ before ++ b :: label').length := by
    rw [List.length_append, List.length_append]
  have hmax : (digitsVal (decimalDigits n) : ℤ) ≤ intMax := by
    rwa [digitsVal_decimalDigits]
  refine ⟨hfind, ?_⟩
  rw [sttCount, hoff]
  simp only [Option.bind_eq_bind, Option.bind_some, hfind]
  rw [hassoc, atoiAt_digits hindex (decimalDigits_ne_nil n) (isDigit_of_mem_decimalDigits n) hc hmax,
    digitsVal_decimalDigits]

/-- A search that succeeds in the body of a response. -/
theorem searchInside_of {client : MemuncachedClient} {pre body rest label : List Byte} {i : ℕ}
    (hoff : client.offset client.response.body = some pre.length)
    (hbuffer : client.buffer = pre ++ (body ++ rest))
    (hsize : client.response.bodySize = body.length)
    (hfind : sstrstr (client.buffer.drop pre.length) label client.response.bodySize = some i) :
    SearchInside client body label where
  found := ⟨pre.length, i, hoff, hfind⟩
  reads := by
    intro off hoff' j hj
    rw [hoff, Option.some.injEq] at hoff'
    subst hoff'
    have hlt := sstrstrReads_lt hj
    rw [hsize] at hlt
    refine ⟨hlt, ?_⟩
    rw [hbuffer, List.drop_left, List.getElem?_append_left hlt]

/-- The second label starts with a byte that does not occur before it. -/
theorem key_notMem (n : ℕ) :
    (75 : Byte) ∉ ascii "Client-Count: " ++ (decimalDigits n ++ [10]) := by
  intro hmem
  rcases List.mem_append.mp hmem with hmem | hmem
  · exact absurd hmem (by decide)
  · rcases List.mem_append.mp hmem with hmem | hmem
    · exact absurd (isDigit_of_mem_decimalDigits n 75 hmem) (by decide)
    · exact absurd hmem (by decide)

theorem sttParsed_of_decodes {clientCount : ℕ} {table : HashTable R}
    (hclients : (clientCount : ℤ) ≤ intMax) (hkeys : (table.count : ℤ) ≤ intMax)
    {client : MemuncachedClient} (h : Decodes (sttResponse clientCount table) client) :
    SttParsed client (sttText clientCount table) clientCount table.count := by
  obtain ⟨pre, rest, hoff, hbuffer⟩ := exists_of_bytesAt h.trailer
  have hsize : client.response.bodySize = (sttText clientCount table).length := h.bodySize
  have htext := sttText_eq hclients hkeys
  have hbody : client.buffer = pre ++ (sttText clientCount table ++ (0 :: crlf ++ rest)) := by
    rw [hbuffer, bodyText, List.append_assoc]
    rfl
  have hlen : client.response.bodySize =
      (ascii "Client-Count: ").length + (decimalDigits clientCount).length + 1 +
        (ascii "Key-Count: ").length + (decimalDigits table.count).length := by
    rw [hsize, htext]
    simp only [List.length_append, List.length_cons]
    omega
  -- the first number ends at the newline, the second at the NUL of the trailer
  have hfirst : client.buffer = pre ++ ([] ++ (ascii "Client-Count: " ++ (decimalDigits clientCount ++
      10 :: (ascii "Key-Count: " ++ (decimalDigits table.count ++ (0 :: crlf ++ rest)))))) := by
    rw [hbody, htext]
    simp only [List.append_assoc, List.cons_append, List.nil_append]
  have hsecond : client.buffer = pre ++ (ascii "Client-Count: " ++ (decimalDigits clientCount ++ [10]) ++
      (ascii "Key-Count: " ++ (decimalDigits table.count ++ 0 :: (crlf ++ rest)))) := by
    rw [hbody, htext]
    simp only [List.append_assoc, List.cons_append, List.nil_append]
  obtain ⟨hfindClient, hclient⟩ := sttCount_eq hoff hfirst
    (by rw [hlen, List.length_nil]; omega) rfl List.not_mem_nil (rfl : 14 = _) (by decide) hclients
  obtain ⟨hfindKey, hkey⟩ := sttCount_eq hoff hsecond
    (by
      rw [hlen]
      simp only [List.length_append, List.length_singleton]
      omega)
    rfl (key_notMem clientCount) (rfl : 11 = _) (by decide) hkeys
  constructor
  · intro label hlabel
    rcases List.mem_pair.mp hlabel with rfl | rfl
    · exact searchInside_of hoff hbody hsize hfindClient
    · exact searchInside_of hoff hbody hsize hfindKey
  · rw [sttResult, code_ok rfl h, if_pos (by decide), hclient, hkey]
    rfl

/-! ## The call -/

/-- A `memuncached_recv` that returns true on the reply to STT leaves a response
    whose counters `memuncached_stt` reads. -/
theorem stt_counters {heap : Heap} {clientCount : ℕ} {table : HashTable R}
    (hclients : (clientCount : ℤ) ≤ intMax) (hkeys : (table.count : ℤ) ≤ intMax)
    {client : MemuncachedClient} (hbuffer : client.buffer.length = client.bufferSize)
    (hpos : 0 < client.bufferSize) {segs : List (List Byte)}
    (hcut : Cut segs (replySuccess (sttText clientCount table))) {ending : StreamEnd}
    {client' : MemuncachedClient} {sock' : Socket}
    (hread : RecvReturns heap client { segments := segs, ending := ending } true client' sock') :
    SttParsed client' (sttText clientCount table) clientCount table.count := by
  rw [replySuccess_sttText] at hcut
  have hsendable := sttResponse_sendable hclients hkeys
  rcases @recv_cases heap _ hsendable client hbuffer hpos segs hcut ending with
    ⟨-, client'', j, hreturns, hdecodes, -⟩ | ⟨-, hfails⟩
  · obtain ⟨-, rfl, -⟩ := hread.unique hreturns
    exact sttParsed_of_decodes hclients hkeys hdecodes
  · exact absurd hread hfails.not_returns

end Stt

/-- Twelve clients and no key, in one segment. -/
theorem stt_counters_twelve :
    ∃ client', RecvReturns Heap.growing (clientOf 10)
        { segments := [replySuccess (sttText 12 (hashTableCreate ℚ 1 Nat.one_pos))]
          ending := .idle } true client' { segments := [], ending := .idle } ∧
      SttParsed client' (sttText 12 (hashTableCreate ℚ 1 Nat.one_pos)) 12 0 := by
  have hclients : ((12 : ℕ) : ℤ) ≤ intMax := by decide
  have hkeys : ((hashTableCreate ℚ 1 Nat.one_pos).count : ℤ) ≤ intMax := by decide
  have hsendable := sttResponse_sendable hclients hkeys
  have hcut : Cut [replySuccess (sttText 12 (hashTableCreate ℚ 1 Nat.one_pos))]
      (replySuccess (sttText 12 (hashTableCreate ℚ 1 Nat.one_pos))) :=
    ⟨by decide, by decide⟩
  have hlen : (sttResponse 12 (hashTableCreate ℚ 1 Nat.one_pos)).encode.length < 2 ^ 30 := by
    decide
  rcases @recv_cases Heap.growing _ hsendable (clientOf 10) rfl (by decide) _
    (replySuccess_sttText 12 _ ▸ hcut) .idle with ⟨-, client', j, hreturns, -⟩ | ⟨hbad, -⟩
  · exact ⟨client', hreturns, stt_counters hclients hkeys rfl (by decide) hcut hreturns⟩
  · exact absurd (sound_inPlace (fun _ => rfl) hlen _) hbad

end Memuncached.Client
