import Memuncached.Server.Framing
import Memuncached.Server.OneReply

/-!
# What a request is answered with

The response to a request as a function of the table it meets.

* `runCall_response`, `StoreRequest.perform_eq`: a call without payload and a
  store request write this one response.
* `serve_respond`: so the handler does for a request that arrives alone.
-/

namespace Memuncached.Server

open Segments

/-! ## Responses -/

def successResponse (data : List Byte) : Response where
  code := ascii "200"
  description := ascii "OK"
  type := none
  body := data

def badRequestResponse (message : List Byte) : Response where
  code := ascii "400"
  description := ascii "BAD REQUEST"
  type := none
  body := message

def notFoundResponse : Response where
  code := ascii "404"
  description := ascii "NOT FOUND"
  type := none
  body := []

def keyExistsResponse : Response where
  code := ascii "409"
  description := ascii "KEY EXISTS"
  type := none
  body := []

theorem replySuccess_eq (data : List Byte) : replySuccess data = (successResponse data).encode :=
  responseWrite_eq_encode (ascii "200") (ascii "OK") data

theorem replyBadRequest_eq (message : List Byte) :
    replyBadRequest message = (badRequestResponse message).encode :=
  responseWrite_eq_encode (ascii "400") (ascii "BAD REQUEST") message

theorem replyNotFound_eq : replyNotFound = notFoundResponse.encode :=
  responseWrite_eq_encode (ascii "404") (ascii "NOT FOUND") []

theorem replyKeyExists_eq : replyKeyExists = keyExistsResponse.encode :=
  responseWrite_eq_encode (ascii "409") (ascii "KEY EXISTS") []

section Respond

variable {R : Type} [CacheValueReal R]

/-- The response that carries what was found. -/
def foundResponse : Option (CacheValue R) → Response
  | none => notFoundResponse
  | some v => valueResponse v

/-- The response to a call without payload. -/
def Call.response (clientCount : ℕ) (table : HashTable R) : Call → Option Response
  | .nothing => none
  | .badRequest message => some (badRequestResponse message)
  | .bye => some (successResponse (ascii "bye."))
  | .stt => some (successResponse (sttText clientCount table))
  | .ver => some (successResponse (ascii "1.0"))
  | .dec key offset initial =>
    some (foundResponse
      (hashTableGet (TableProg.exec (memuncachedDec key offset initial) table).2 key))
  | .inc key offset initial =>
    some (foundResponse
      (hashTableGet (TableProg.exec (memuncachedInc key offset initial) table).2 key))
  | .del key => some (foundResponse (hashTableGet table key))
  | .get key => some (foundResponse (hashTableGet table key))
  | .set _ _ _ _ _ => none

/-- The value of a store request, if its type is one of the three. -/
def StoreRequest.value (r : StoreRequest) : Option (CacheValue R) :=
  setResult r.key (r.type.headD 0 - 48) r.payload.length (r.payload ++ [0, 0])

/-- The response to a store request. -/
def StoreRequest.response (table : HashTable R) (r : StoreRequest) : Response :=
  if r.overwrite = true ∨ hashTableGet table r.key = none then
    if (r.value : Option (CacheValue R)).isSome then successResponse []
    else badRequestResponse (ascii "The argument LENGTH must be 0, 1, or 2.")
  else keyExistsResponse

/-- The response to a request. -/
def Request.response (clientCount : ℕ) (table : HashTable R) : Request → Option Response
  | .line l => (lineCall l.words).response clientCount table
  | .store r => some (r.response table)

/-! ## Calls -/

/-- The reply that carries what was found. -/
theorem answer_eq {v : Option (CacheValue R)} (hv : ∀ x ∈ v, x.WellFormed ∧ ReplyFits x) :
    answer v = some [(foundResponse v).encode] := by
  cases v with
  | none =>
    rw [answer, replyNotFound_eq]
    rfl
  | some x =>
    obtain ⟨hwf, hfit⟩ := hv x rfl
    rw [answer, getReply_wellFormed hwf hfit]
    rfl

/-- A command on the table that answers with what is under the key. -/
theorem ofTable_response {p : TableProg R (Option (List (List Byte)))} {table : HashTable R}
    {v : Option (CacheValue R)} (hp : (TableProg.exec p table).1 = answer v)
    (hv : ∀ x ∈ v, x.WellFormed ∧ ReplyFits x) :
    CommandState.ofTable p table =
      .done [.reply (foundResponse v).encode] (TableProg.exec p table).2 true := by
  rw [ofTable_eq, hp, answer_eq hv]
  rfl

/-- A counter command answers with the number that it leaves. -/
theorem counter_response {p : TableProg R (Option (List (List Byte)))} {table : HashTable R}
    {key : List Byte} (htable : Reachable table) (hvalid : ValidCalls p)
    (hp : ∃ v : CacheValue R, v.type ≠ cacheValueString ∧
      hashTableGet (TableProg.exec p table).2 key = some v ∧
      (TableProg.exec p table).1 = answer (some v)) :
    CommandState.ofTable p table =
      .done [.reply (foundResponse (hashTableGet (TableProg.exec p table).2 key)).encode]
        (TableProg.exec p table).2 true := by
  obtain ⟨v, hs, hget, hanswer⟩ := hp
  rw [hget]
  apply ofTable_response hanswer
  rintro x ⟨⟩
  exact ⟨(Reachable.run hvalid htable).wellFormed _ v hget, fun hx => absurd hx hs⟩

/-- A call without payload writes its response. -/
theorem runCall_response (env : Env) {table : HashTable R} (htable : Reachable table)
    (clientCount : ℕ) (mem : List Byte) (k : ℕ) {call : Call} (hfits : call.Fits table)
    {r : Response} (hr : call.response clientCount table = some r) :
    runCall env table clientCount mem k call =
      .done [.reply r.encode] (Request.performCall table call) (decide (call ≠ .bye)) := by
  have hfound : ∀ key, call = .get key ∨ call = .del key →
      ∀ x ∈ hashTableGet table key, x.WellFormed ∧ ReplyFits x :=
    fun key hkey x hx => ⟨htable.wellFormed _ x hx, hfits key x hkey hx⟩
  cases call with
  | nothing => cases hr
  | set key type length itr overwrite => cases hr
  | badRequest message =>
    obtain rfl := Option.some.inj hr
    rw [← replyBadRequest_eq]
    rfl
  | bye =>
    obtain rfl := Option.some.inj hr
    rw [← replySuccess_eq]
    rfl
  | stt =>
    obtain rfl := Option.some.inj hr
    rw [← replySuccess_eq]
    rfl
  | ver =>
    obtain rfl := Option.some.inj hr
    rw [← replySuccess_eq]
    rfl
  | dec key offset initial =>
    obtain rfl := Option.some.inj hr
    exact @counter_response R _ (memuncachedDec key offset initial) table key htable
      (memuncachedDec_valid key offset initial) (memuncachedDec_spec key offset initial table)
  | inc key offset initial =>
    obtain rfl := Option.some.inj hr
    exact @counter_response R _ (memuncachedInc key offset initial) table key htable
      (memuncachedInc_valid key offset initial) (memuncachedInc_spec key offset initial table)
  | del key =>
    obtain rfl := Option.some.inj hr
    exact @ofTable_response R _ (memuncachedDel key) table (hashTableGet table key)
      (by rw [exec_memuncachedDel]) (hfound key (Or.inr rfl))
  | get key =>
    obtain rfl := Option.some.inj hr
    have hget := @ofTable_response R _ (memuncachedGet key) table (hashTableGet table key)
      (by rw [exec_memuncachedGet]) (hfound key (Or.inl rfl))
    rw [exec_memuncachedGet] at hget
    exact hget

/-! ## Store requests -/

/-- The table behind a store request. -/
def StoreRequest.leaves (table : HashTable R) (r : StoreRequest) : HashTable R :=
  if r.overwrite = true ∨ hashTableGet table r.key = none then
    match (r.value : Option (CacheValue R)) with
    | some v => (hashTableSet table r.key v.type v.value v.length).2
    | none => (hashTableDel table r.key).2
  else table

/-- The value that is deleted first makes no difference. -/
theorem hashTableSet_del {table : HashTable R} (h : table.CountOk) (key : List Byte)
    (type : UInt8) (value : CacheData R) (size : ℕ) :
    hashTableSet (hashTableDel table key).2 key type value size =
      hashTableSet table key type value size := by
  have hi := table.index_lt key
  unfold hashTableDel
  cases hslot : table.slot (table.index key) with
  | none => rfl
  | some v =>
    have hpos : 0 < table.count := by
      rw [h]
      exact table.occupied_pos hi (by rw [hslot]; rfl)
    have hone : table.count - 1 + 1 = table.count := by omega
    have hset : ∀ x, (table.setSlot (table.index key) none (table.count - 1)).setSlot
        (table.index key) x table.count = table.setSlot (table.index key) x table.count := by
      intro x
      simp [HashTable.setSlot]
    simp only [hashTableSet, HashTable.index_setSlot, table.slot_setSlot_self hi,
      HashTable.count_setSlot, hone, hslot, Option.isNone_none, Option.isNone_some, if_true, hset]
    rfl

/-- The value a store request leaves behind is a copy of its own. -/
theorem setValue_eq {key type : List Byte} {vLength : ℤ} {payload : Option (List Byte)}
    {buffer : List Byte} (h : putTerminators payload vLength = some buffer) {v : CacheValue R}
    (hv : setResult key (type.headD 0 - 48) vLength buffer = some v) (table : HashTable R) :
    TableProg.exec (setValue key type vLength payload) table =
      (some [replySuccess []],
        (hashTableSet (hashTableDel table key).2 key v.type v.value v.length).2) := by
  unfold setResult at hv
  unfold setValue
  rw [TableProg.exec_bind, h]
  dsimp only
  split_ifs at hv ⊢ with h0 h1 h2
  · obtain rfl := Option.some.inj hv
    rfl
  · obtain rfl := Option.some.inj hv
    rfl
  · obtain rfl := Option.some.inj hv
    have hcopy : (CacheData.string buffer : CacheData R).copyAs (type.headD 0 - 48) vLength.toNat =
        (CacheData.string (buffer.take vLength.toNat)).copyAs (type.headD 0 - 48)
          vLength.toNat := by
      simp only [CacheData.copyAs, if_neg h0, if_neg h1, if_pos h2, CacheData.asString,
        List.take_take, Nat.min_self]
    rw [TableProg.exec_bind, TableProg.exec_set, TableProg.exec_pure, hashTableSet, hcopy]
    rfl

/-- A store request writes its response. -/
theorem StoreRequest.perform_eq (r : StoreRequest) {table : HashTable R} (htable : table.CountOk) :
    r.perform table = (some [(r.response table).encode], r.leaves table) := by
  have hput := putTerminators_eq r.length_body
    (show r.body.take r.payload.length = r.payload by simp [StoreRequest.body])
  rw [StoreRequest.perform, exec_setTable, StoreRequest.response, StoreRequest.leaves]
  split_ifs with hstores hvalue
  · obtain ⟨v, hv⟩ := Option.isSome_iff_exists.mp hvalue
    rw [setValue_eq hput hv, hashTableSet_del htable, replySuccess_eq, hv]
  · have hv : (r.value : Option (CacheValue R)) = none := by simpa using hvalue
    rw [setValue_rejects hput hv, replyBadRequest_eq, hv]
  · rw [replyKeyExists_eq]

/-! ## Requests -/

/-- A length that SET and ADD take. -/
def Request.LengthOk : Request → Prop
  | .line _ => True
  | .store r => (r.payload.length : ℤ) + 2 ≤ intMax

/-- A request leads from a reachable table to a reachable one. -/
theorem Request.perform_reachable {table : HashTable R} (htable : Reachable table) {r : Request}
    (hlength : r.LengthOk) : Reachable (r.perform table) := by
  cases r with
  | line l =>
    show Reachable (Request.performCall table (lineCall l.words))
    cases lineCall l.words with
    | dec key offset initial => exact Reachable.run (memuncachedDec_valid key offset initial) htable
    | inc key offset initial => exact Reachable.run (memuncachedInc_valid key offset initial) htable
    | del key => exact Reachable.run (memuncachedDel_valid key) htable
    | _ => exact htable
  | store r => exact Reachable.run (setTable_valid r.key r.type hlength _ _) htable

/-- What the handler has logged for a request it has dispatched is its response. -/
theorem Logged.response {env : Env} {clientCount : ℕ} {table table' : HashTable R} {r : Request}
    {events : List Event} {res : Response} (h : Logged clientCount table r events table')
    (htable : Reachable table) (hans : r.Answered table)
    (hres : r.response clientCount table = some res) : repliesOf events = [res.encode] := by
  cases h with
  | @line l events table' running hrun =>
    have hdone := runCall_response env htable clientCount [] 0
      (fun key v hkey hv => hans key hkey v hv) hres
    rw [hrun] at hdone
    injection hdone with hevents
    rw [hevents]
    rfl
  | @store r k itr reply hreply =>
    obtain rfl := Option.some.inj hres
    rw [r.perform_eq htable.countOk] at hreply
    injection hreply with hreply
    injection hreply with hreply
    rw [← hreply]
    rfl

/-- A request that arrives alone is answered with its response, whatever the
    segments are. -/
theorem serve_respond {env : Env} (henv : env.AllocationsSucceed) {h : Handler R}
    (hc : h.control = .recvLine ReadLoop.init) (hrun : h.isThreadRunning = true)
    (htable : Reachable h.table) (r : Request) {segs : List (List Byte)} (hcut : Cut segs r.encode)
    (hclean : r.CleanAt (spill connectionRecvLength segs r.header.length))
    (hans : r.Answered h.table) (hopen : ¬ r.Closes) {res : Response}
    (hres : r.response h.clientCount h.table = some res) :
    ∃ n h' events, serve env n (h, { segments := segs, ending := .idle }) =
        (h', { segments := [], ending := .idle }) ∧
      h'.control = .recvLine ReadLoop.init ∧ h'.isThreadRunning = true ∧
      h'.log = h.log ++ events ∧ repliesOf events = [res.encode] ∧
      h'.table = r.perform h.table ∧ h'.clientCount = h.clientCount := by
  obtain ⟨n, h', events, hserve, hlogged, hperform, hlog, hcount, -, hgo⟩ :=
    serve_request henv .idle hc hrun r (by rwa [List.append_nil]) hclean hans
  obtain ⟨hwaiting, hrunning⟩ := hgo hopen
  have hrest : dropBytes r.encode.length segs = [] := by
    have hdrop := hcut.dropBytes r.encode.length
    rw [List.drop_length] at hdrop
    exact hdrop.eq_nil
  rw [hrest] at hserve
  exact ⟨n, h', events, hserve, hwaiting, hrunning, hlog,
    @Logged.response R _ env _ _ _ _ _ _ hlogged htable hans hres, hperform, hcount⟩

end Respond

end Memuncached.Server
