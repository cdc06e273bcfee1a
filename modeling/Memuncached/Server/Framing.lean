import Memuncached.Server.Spoiled

/-!
# Framing

A client sends a sequence of requests; TCP delivers them in segments of any
size. `Framed` says that the handler dispatched exactly these requests, each
with its own arguments and payload, and `CleanCut` on which cuts it does.

* `framedRun_iff`: the two are equivalent. A request whose header line arrives
  in one `recv` with bytes behind it is taken apart wrongly unless these bytes
  are an intact part of its own payload.
* `Framed.unique`: the replies and the final table depend on the requests alone.
-/

namespace Memuncached.Server

open Segments

/-! ## Requests -/

/-- A request without payload in the documented format. -/
structure LineRequest where
  words : List (List Byte)
  ne_nil : words ≠ []
  word_words : ∀ w ∈ words, Word w
  not_add : ∀ cmd ∈ words.head?, commandWord cmd ≠ some .add
  not_set : ∀ cmd ∈ words.head?, commandWord cmd ≠ some .set

/-- A request. -/
inductive Request where
  | line (l : LineRequest)
  | store (r : StoreRequest)

namespace Request

/-- The header line. -/
def header : Request → List Byte
  | line l => headerLine l.words
  | store r => r.header

/-- What follows the header line. -/
def body : Request → List Byte
  | line _ => []
  | store r => r.body

def encode (r : Request) : List Byte := r.header ++ r.body

/-- BYE ends the session. -/
def Closes : Request → Prop
  | line l => lineCall l.words = .bye
  | store _ => False

/-- The cut is harmless for the request when `k` bytes arrive in the same
    `recv` as the end of its header line. -/
def CleanAt : Request → ℕ → Prop
  | line _, k => k = 0
  | store r, k => r.CleanAt k

section Table

variable {R : Type} [CacheValueReal R]

/-- A GET or DEL does not find a string whose reply overflows `buffer_len`. -/
def Answered (table : HashTable R) : Request → Prop
  | line l => ∀ key, lineCall l.words = .get key ∨ lineCall l.words = .del key →
      ∀ v ∈ hashTableGet table key, ReplyFits v
  | store _ => True

/-- The table behind a call without payload. -/
def performCall (table : HashTable R) : Call → HashTable R
  | .dec key offset initial => (TableProg.exec (memuncachedDec key offset initial) table).2
  | .inc key offset initial => (TableProg.exec (memuncachedInc key offset initial) table).2
  | .del key => (TableProg.exec (memuncachedDel key) table).2
  | _ => table

/-- The table behind the request. -/
def perform (table : HashTable R) : Request → HashTable R
  | line l => performCall table (lineCall l.words)
  | store r => (r.perform table).2

end Table

end Request

/-- The byte stream of a sequence of requests. -/
def encodeAll (reqs : List Request) : List Byte := reqs.flatMap Request.encode

/-- The cut is harmless for every request, every reply fits, and BYE is the last
    request, if any. -/
def CleanCut {R : Type} [CacheValueReal R] : HashTable R → List Request → List (List Byte) → Prop
  | _, [], _ => True
  | table, r :: reqs, segs =>
    r.CleanAt (spill connectionRecvLength segs r.header.length) ∧ r.Answered table ∧
    (r.Closes → reqs = []) ∧
    CleanCut (r.perform table) reqs (dropBytes r.encode.length segs)

/-! ## What is dispatched -/

section Framed

variable {R : Type} [CacheValueReal R]

/-- What the handler logs for a request that it dispatches with its own
    arguments and payload, and the table behind it. Of the body of a store
    request any part may have come with the header; the rest is read by
    `memuncached_set`. -/
inductive Logged (clientCount : ℕ) (table : HashTable R) : Request → List Event → HashTable R → Prop
  | line {l : LineRequest} {events : List Event} {table' : HashTable R} {running : Bool}
      (hrun : ∀ env mem k, runCall env table clientCount mem k (lineCall l.words) =
        .done events table' running) :
      Logged clientCount table (.line l)
        (.command (headerLine l.words) (lineCall l.words) :: events) table'
  | store {r : StoreRequest} {k itr : ℕ} {reply : List Byte}
      (hreply : (r.perform table).1 = some [reply]) :
      Logged clientCount table (.store r)
        [.command (r.header ++ r.body.take k) (.set r.key r.type r.length itr r.overwrite),
          .payload (r.body.drop k) r.payload, .reply reply] (r.perform table).2

/-- The handler dispatched exactly these requests, in order. -/
inductive Framed (clientCount : ℕ) : HashTable R → List Request → List Event → HashTable R → Prop
  | nil (table : HashTable R) : Framed clientCount table [] [] table
  | cons {table table' table'' : HashTable R} {r : Request} {reqs : List Request}
      {events log : List Event} (hr : Logged clientCount table r events table')
      (hreqs : Framed clientCount table' reqs log table'') :
      Framed clientCount table (r :: reqs) (events ++ log) table''

/-- The handler has taken the whole stream and dispatched exactly these
    requests; it waits for the next line or has left its loop. -/
def FramedRun (h : Handler R) (reqs : List Request) (s : Handler R × Socket) : Prop :=
  (∃ log, s.1.log = h.log ++ log ∧ Framed h.clientCount h.table reqs log s.1.table) ∧
  (s.1.control = .recvLine ReadLoop.init ∨ s.1.control = .cleanup) ∧ s.2.segments = []

theorem Logged.unique {clientCount : ℕ} {table table1 table2 : HashTable R} {r : Request}
    {events1 events2 : List Event} (h1 : Logged clientCount table r events1 table1)
    (h2 : Logged clientCount table r events2 table2) :
    events1.length = events2.length ∧ repliesOf events1 = repliesOf events2 ∧ table1 = table2 := by
  cases h1 with
  | line hrun1 =>
    cases h2 with
    | line hrun2 =>
      have heq := (hrun1 ⟨fun _ => 0, fun _ => true⟩ [] 0).symm.trans
        (hrun2 ⟨fun _ => 0, fun _ => true⟩ [] 0)
      injection heq with he ht
      subst he
      exact ⟨rfl, rfl, ht⟩
  | store hreply1 =>
    cases h2 with
    | store hreply2 =>
      rw [hreply1] at hreply2
      injection hreply2 with hreply2
      injection hreply2 with hreply2
      subst hreply2
      exact ⟨rfl, rfl, rfl⟩

theorem Logged.length_pos {clientCount : ℕ} {table table' : HashTable R} {r : Request}
    {events : List Event} (h : Logged clientCount table r events table') : 0 < events.length := by
  cases h <;> exact Nat.succ_pos _

theorem Framed.length_pos {clientCount : ℕ} {table table' : HashTable R} {r : Request}
    {reqs : List Request} {log : List Event}
    (h : Framed clientCount table (r :: reqs) log table') : 0 < log.length := by
  cases h with
  | cons hr _ =>
    have hpos := hr.length_pos
    rw [List.length_append]
    omega

/-- The replies and the final table are those of the requests, whatever the
    cut. -/
theorem Framed.unique {clientCount : ℕ} {table table1 table2 : HashTable R} {reqs : List Request}
    {log1 log2 : List Event} (h1 : Framed clientCount table reqs log1 table1)
    (h2 : Framed clientCount table reqs log2 table2) :
    repliesOf log1 = repliesOf log2 ∧ table1 = table2 := by
  induction h1 generalizing log2 with
  | nil table =>
    cases h2
    exact ⟨rfl, rfl⟩
  | cons hr1 _ ih =>
    cases h2 with
    | cons hr2 hreqs2 =>
      obtain ⟨-, hreplies, rfl⟩ := hr1.unique hr2
      obtain ⟨hrest, htable⟩ := ih hreqs2
      refine ⟨?_, htable⟩
      rw [repliesOf_append, repliesOf_append, hreplies, hrest]

/-! ## Requests without payload -/

omit [CacheValueReal R] in
theorem lineCall_ne_set (ws : List (List Byte)) (key type length : List Byte) (itr : ℕ)
    (overwrite : Bool) : lineCall ws ≠ .set key type length itr overwrite := by
  cases ws with
  | nil => simp [lineCall]
  | cons cmd args =>
    rw [lineCall]
    cases commandWord cmd with
    | none => simp
    | some word =>
      cases word with
      | add => simp
      | bye => exact bareCall_ne_set (by simp) _
      | dec => exact counterCall_ne_set (by simp) _ _ _
      | del => exact keyCall_ne_set (by simp) _
      | inc => exact counterCall_ne_set (by simp) _ _ _
      | get => exact keyCall_ne_set (by simp) _
      | set => simp
      | stt => exact bareCall_ne_set (by simp) _
      | ver => exact bareCall_ne_set (by simp) _

theorem ofTable_done {p : TableProg R (Option (List (List Byte)))} {table : HashTable R}
    {writes : List (List Byte)} (h : (TableProg.exec p table).1 = some writes) :
    CommandState.ofTable p table =
      .done (writes.map .reply) (TableProg.exec p table).2 true := by
  rw [ofTable_eq, h]

/-- A request without payload finishes at once, whatever the environment; BYE
    alone stops the handler. -/
theorem runCall_answered (clientCount : ℕ) {table : HashTable R} {l : LineRequest}
    (h : (Request.line l).Answered table) :
    ∃ events, ∀ env mem k, runCall env table clientCount mem k (lineCall l.words) =
      .done events ((Request.line l).perform table) (decide (lineCall l.words ≠ .bye)) := by
  have hget : ∀ key, lineCall l.words = .get key ∨ lineCall l.words = .del key →
      ∃ writes, answer (hashTableGet table key) = some writes := by
    intro key hcall
    apply Option.ne_none_iff_exists'.mp
    rw [ne_eq, answer_eq_none]
    rintro ⟨v, hv, hfit⟩
    exact hfit (h key hcall v hv)
  have hnumber : ∀ v : CacheValue R, v.type ≠ cacheValueString →
      ∃ writes, answer (some v) = some writes := by
    intro v hs
    apply Option.ne_none_iff_exists'.mp
    rw [ne_eq, answer_eq_none]
    rintro ⟨v', hv', hfit⟩
    injection hv' with hv'
    exact hfit fun hs' => absurd (hv' ▸ hs') hs
  show ∃ events, ∀ env mem k, runCall env table clientCount mem k (lineCall l.words) =
    .done events (Request.performCall table (lineCall l.words)) _
  cases hcall : lineCall l.words with
  | set key type length itr overwrite => exact absurd hcall (lineCall_ne_set _ _ _ _ _ _)
  | nothing => exact ⟨_, fun _ _ _ => rfl⟩
  | badRequest message => exact ⟨_, fun _ _ _ => rfl⟩
  | bye => exact ⟨_, fun _ _ _ => rfl⟩
  | stt => exact ⟨_, fun _ _ _ => rfl⟩
  | ver => exact ⟨_, fun _ _ _ => rfl⟩
  | dec key offset initial =>
    obtain ⟨v, hs, -, hreply⟩ := memuncachedDec_spec key offset initial table
    obtain ⟨writes, hwrites⟩ := hnumber v hs
    exact ⟨_, fun _ _ _ => ofTable_done (hreply.trans hwrites)⟩
  | inc key offset initial =>
    obtain ⟨v, hs, -, hreply⟩ := memuncachedInc_spec key offset initial table
    obtain ⟨writes, hwrites⟩ := hnumber v hs
    exact ⟨_, fun _ _ _ => ofTable_done (hreply.trans hwrites)⟩
  | del key =>
    obtain ⟨writes, hwrites⟩ := hget key (Or.inr hcall)
    exact ⟨_, fun _ _ _ => ofTable_done ((congrArg Prod.fst (exec_memuncachedDel key table)).trans
      hwrites)⟩
  | get key =>
    obtain ⟨writes, hwrites⟩ := hget key (Or.inl hcall)
    have hdone := ofTable_done ((congrArg Prod.fst (exec_memuncachedGet key table)).trans hwrites)
    rw [exec_memuncachedGet] at hdone
    exact ⟨_, fun _ _ _ => hdone⟩

/-- A request that is not answered has no defined behaviour. -/
theorem runCall_not_answered (clientCount : ℕ) {table : HashTable R} {l : LineRequest}
    (h : ¬ (Request.line l).Answered table) (env : Env) (mem : List Byte) (k : ℕ) :
    runCall env table clientCount mem k (lineCall l.words) = .fault := by
  unfold Request.Answered at h
  push Not at h
  obtain ⟨key, hcall, v, hv, hfit⟩ := h
  have hnone : answer (hashTableGet table key) = none := answer_eq_none.mpr ⟨v, hv, hfit⟩
  rcases hcall with hcall | hcall
  · rw [hcall]
    show CommandState.ofTable (memuncachedGet key) table = .fault
    rw [ofTable_eq, exec_memuncachedGet, hnone]
  · rw [hcall]
    show CommandState.ofTable (memuncachedDel key) table = .fault
    rw [ofTable_eq, exec_memuncachedDel, hnone]

/-- The line of a request without payload, with `chunk` behind it: the handler
    dispatches it with these bytes, or the scan runs off the block. -/
theorem dispatch_line (env : Env) (h : Handler R) (l : LineRequest) {rl : ReadLoop}
    {chunk : List Byte} (hr : rl.Holds (headerLine l.words ++ chunk)) (k : ℕ) :
    (h.dispatch env rl k).log = h.log ∧ (h.dispatch env rl k).control = .fault ∨
      ∃ call more, (h.dispatch env rl k).log =
        h.log ++ .command (headerLine l.words ++ chunk) call :: more := by
  obtain ⟨pre, b, hjoin, hb⟩ := joinWords_concat l.ne_nil l.word_words
  have hheader : headerLine l.words ++ chunk = pre ++ b :: (crlf ++ chunk) := by
    simp [headerLine, hjoin]
  rw [hheader] at hr ⊢
  obtain ⟨tail, -, hdispatch⟩ := dispatch_eq env h hr hb
  rw [hdispatch]
  cases handleCommandCall (pre ++ b :: (trimmed (crlf ++ chunk) ++ tail)) with
  | none => exact Or.inl ⟨rfl, rfl⟩
  | some result =>
    obtain ⟨more, hmore⟩ := resume_log
      { h with log := h.log ++ [.command (pre ++ b :: (crlf ++ chunk)) result.1] }
      (runCall env h.table h.clientCount result.2 k result.1)
    exact Or.inr ⟨result.1, more, hmore.symm.trans (List.append_cons _ _ _).symm⟩

/-- A line that arrives with nothing behind it is carried out. -/
theorem dispatch_line_clean (env : Env) (h : Handler R) (hrun : h.isThreadRunning = true)
    {l : LineRequest} (hans : (Request.line l).Answered h.table) {rl : ReadLoop}
    (hr : rl.Holds (headerLine l.words)) :
    ∃ events, Logged h.clientCount h.table (.line l) events (h.dispatch env rl 0).table ∧
      (h.dispatch env rl 0).table = (Request.line l).perform h.table ∧
      (h.dispatch env rl 0).log = h.log ++ events ∧
      (h.dispatch env rl 0).clientCount = h.clientCount ∧
      (h.dispatch env rl 0).isThreadRunning = decide (lineCall l.words ≠ .bye) ∧
      (h.dispatch env rl 0).control =
        if lineCall l.words = .bye then .cleanup else .recvLine ReadLoop.init := by
  obtain ⟨pre, b, hjoin, hb⟩ := joinWords_concat l.ne_nil l.word_words
  have hheader : headerLine l.words = pre ++ b :: crlf := by
    simp [headerLine, hjoin]
  rw [hheader] at hr
  obtain ⟨tail, -, hdispatch⟩ := dispatch_eq env h hr hb
  have hblock : pre ++ b :: (trimmed crlf ++ tail) = joinWords l.words ++ 0 :: (0 :: tail) := by
    have hcrlf : trimmed crlf = [0, 0] := by decide
    rw [hjoin, hcrlf]
    simp
  obtain ⟨mem, hmem⟩ := handleCommandCall_line l.word_words l.not_add l.not_set (0 :: tail)
  obtain ⟨events, hevents⟩ := runCall_answered h.clientCount hans
  have heq : h.dispatch env rl 0 =
      Handler.resume { h with log := h.log ++ [.command (headerLine l.words) (lineCall l.words)] }
        (.done events ((Request.line l).perform h.table)
          (decide (lineCall l.words ≠ .bye))) := by
    rw [hdispatch, hblock, hmem, hheader]
    dsimp only
    rw [hevents]
  rw [heq]
  refine ⟨_, .line hevents, rfl, ?_, rfl, ?_, ?_⟩
  · show (h.log ++ [_]) ++ events = _
    rw [List.append_assoc]
    rfl
  · show (h.isThreadRunning && _) = _
    rw [hrun, Bool.true_and]
  · show (if (h.isThreadRunning && _) = true then _ else _) = _
    rw [hrun, Bool.true_and]
    by_cases hbye : lineCall l.words = .bye <;> simp [hbye]

/-! ## One request -/

/-- A request whose cut is harmless is dispatched as it was sent. -/
theorem serve_request {env : Env} (henv : env.AllocationsSucceed) (ending : StreamEnd)
    {h : Handler R} (hc : h.control = .recvLine ReadLoop.init) (hrun : h.isThreadRunning = true)
    (r : Request) {segs : List (List Byte)} {later : List Byte}
    (hcut : Cut segs (r.encode ++ later))
    (hclean : r.CleanAt (spill connectionRecvLength segs r.header.length))
    (hans : r.Answered h.table) :
    ∃ n h' events, serve env n (h, { segments := segs, ending := ending }) =
        (h', { segments := dropBytes r.encode.length segs, ending := ending }) ∧
      Logged h.clientCount h.table r events h'.table ∧ h'.table = r.perform h.table ∧
      h'.log = h.log ++ events ∧ h'.clientCount = h.clientCount ∧
      (r.Closes → h'.control = .cleanup) ∧
      (¬ r.Closes → h'.control = .recvLine ReadLoop.init ∧ h'.isThreadRunning = true) := by
  have hcut' : Cut segs (r.header ++ (r.body ++ later)) := by
    rwa [Request.encode, List.append_assoc] at hcut
  have hlen : r.encode.length = r.header.length + r.body.length := List.length_append
  rw [hlen]
  cases r with
  | line l =>
    obtain ⟨n, rl, hrl, -, hserve⟩ := serve_headerLine henv ending hc
      (newline_notMem_joinWords l.word_words) hcut'
    have hk : spill connectionRecvLength segs (headerLine l.words).length = 0 := hclean
    rw [hk, List.take_zero, List.append_nil] at hrl
    rw [hk, Nat.add_zero] at hserve
    obtain ⟨events, hlogged, htable, hlog, hcount, hrunning, hcontrol⟩ :=
      dispatch_line_clean env h hrun hans hrl
    refine ⟨n, _, events, hserve, hlogged, htable, hlog, hcount, fun hbye => ?_, fun hbye => ⟨?_, ?_⟩⟩
    · exact hcontrol.trans (if_pos hbye)
    · exact hcontrol.trans (if_neg hbye)
    · exact hrunning.trans (decide_eq_true hbye)
  | store r =>
    obtain ⟨n, itr, reply, hreply, hserve⟩ := serve_store henv ending hc hrun r hcut' hclean
    exact ⟨n, _, _, hserve, .store hreply, rfl, rfl, rfl, fun hbye => hbye.elim,
      fun _ => ⟨hc, hrun⟩⟩

/-- A line that arrives with bytes behind it is dispatched with these bytes, if
    at all. -/
theorem serve_line_not {env : Env} (henv : env.AllocationsSucceed) (ending : StreamEnd)
    {h : Handler R} (hc : h.control = .recvLine ReadLoop.init) (l : LineRequest)
    {segs : List (List Byte)} {later : List Byte} (hcut : Cut segs (headerLine l.words ++ later))
    (hk : spill connectionRecvLength segs (headerLine l.words).length ≠ 0) (call : Call)
    (more : List Event) (n : ℕ) :
    (serve env n (h, { segments := segs, ending := ending })).1.log ≠
      h.log ++ .command (headerLine l.words) call :: more := by
  intro hlog
  obtain ⟨m, rl, hrl, hle, hserve⟩ := serve_headerLine henv ending hc
    (newline_notMem_joinWords l.word_words) hcut
  rcases dispatch_line env h l hrl (spill connectionRecvLength segs (headerLine l.words).length)
    with ⟨hsame, hfault⟩ | ⟨call', more', hcommand⟩
  · -- the scan has left the block: nothing is logged any more
    have hfar := serve_log_later hlog m
    rw [Nat.add_comm, serve_add, hserve, serve_stopped env (Or.inr hfault), hsame] at hfar
    have hlen := hfar.length_le
    simp only [List.length_append, List.length_cons] at hlen
    omega
  · have hat : (serve env m (h, { segments := segs, ending := ending })).1.log =
        (h.dispatch env rl (spill connectionRecvLength segs (headerLine l.words).length)).log := by
      rw [hserve]
    have hfirst := serve_log_first (hat.trans hcommand) hlog
    injection hfirst with hreceived
    have hlen := congrArg List.length hreceived
    rw [List.length_append, List.length_take, min_eq_left hle] at hlen
    omega

/-- A request whose cut is not harmless, or that is not answered, is never
    dispatched as it was sent. -/
theorem serve_request_not {env : Env} (henv : env.AllocationsSucceed) (ending : StreamEnd)
    {h : Handler R} (hc : h.control = .recvLine ReadLoop.init)
    (r : Request) {segs : List (List Byte)} {later : List Byte}
    (hcut : Cut segs (r.encode ++ later))
    (hclean : ¬ (r.CleanAt (spill connectionRecvLength segs r.header.length) ∧
      r.Answered h.table))
    {table : HashTable R} {events : List Event}
    (hlogged : Logged h.clientCount h.table r events table) (more : List Event) (n : ℕ) :
    (serve env n (h, { segments := segs, ending := ending })).1.log ≠ h.log ++ (events ++ more) := by
  have hcut' : Cut segs (r.header ++ (r.body ++ later)) := by
    rwa [Request.encode, List.append_assoc] at hcut
  cases hlogged with
  | @line l events table' running hevents =>
    have hans : (Request.line l).Answered h.table := by
      by_contra hno
      have hfault := runCall_not_answered h.clientCount hno env [] 0
      rw [hevents] at hfault
      cases hfault
    exact serve_line_not henv ending hc _ hcut' (fun hk => hclean ⟨hk, hans⟩) _ _ n
  | store hreply =>
    exact serve_store_not henv ending hc _ hcut' (fun hk => hclean ⟨hk, trivial⟩) _ _ _ _ n

/-! ## All requests -/

/-- The handler dispatches the requests as they were sent exactly on the
    harmless cuts. -/
theorem framedRun_iff {env : Env} (henv : env.AllocationsSucceed) (ending : StreamEnd)
    (reqs : List Request) {h : Handler R} (hc : h.control = .recvLine ReadLoop.init)
    (hrun : h.isThreadRunning = true) {segs : List (List Byte)} (hcut : Cut segs (encodeAll reqs)) :
    (∃ n, FramedRun h reqs (serve env n (h, { segments := segs, ending := ending }))) ↔
      CleanCut h.table reqs segs := by
  induction reqs generalizing h segs with
  | nil =>
    refine ⟨fun _ => trivial, fun _ => ⟨0, ⟨[], ?_, .nil _⟩, Or.inl hc, hcut.eq_nil⟩⟩
    exact (List.append_nil _).symm
  | cons r reqs ih =>
    have hcut0 : Cut segs (r.encode ++ encodeAll reqs) := hcut
    by_cases hclean : r.CleanAt (spill connectionRecvLength segs r.header.length) ∧
        r.Answered h.table
    · obtain ⟨n0, h', events, hserve, hlogged, hperform, hlog, hcount, hclose, hgo⟩ :=
        serve_request henv ending hc hrun r hcut0 hclean.1 hclean.2
      have hrest : Cut (dropBytes r.encode.length segs) (encodeAll reqs) := by
        have hdrop := hcut0.dropBytes r.encode.length
        rwa [List.drop_left] at hdrop
      constructor
      · rintro ⟨n, ⟨log, hn, hframed⟩, hwait, hsegs⟩
        refine ⟨hclean.1, hclean.2, ?_⟩
        -- with requests left the log goes on, so that this request is done
        cases hframed with
        | @cons _ table' _ _ _ events' log' hr hreqs =>
          obtain ⟨hlen, -, htable⟩ := hr.unique hlogged
          cases reqs with
          | nil => exact ⟨fun _ => rfl, trivial⟩
          | cons r' reqs =>
            have hpos := hreqs.length_pos
            have hlog0 : (serve env n0 (h, { segments := segs, ending := ending })).1.log =
                h.log ++ events := by
              rw [hserve]
              exact hlog
            have hle : n0 ≤ n := by
              by_contra hlt
              obtain ⟨d, rfl⟩ := Nat.exists_eq_add_of_le' (by omega : n ≤ n0)
              have hfar := (serve_log_later hn d).length_le
              rw [hlog0] at hfar
              simp only [List.length_append] at hfar
              omega
            obtain ⟨d, rfl⟩ := Nat.exists_eq_add_of_le' hle
            rw [serve_add, hserve] at hn hwait hsegs hreqs
            obtain ⟨x, hx⟩ := serve_log_prefix env d
              (h', { segments := dropBytes r.encode.length segs, ending := ending })
            have hsplit : events' ++ log' = events ++ x := by
              rw [← hx, hlog, List.append_assoc, List.append_cancel_left_eq] at hn
              exact hn.symm
            obtain ⟨-, rfl⟩ := List.append_inj hsplit hlen
            have hcl : ¬ r.Closes := by
              intro hcl
              have hstop := serve_stopped env
                (s := (h', { segments := dropBytes r.encode.length segs, ending := ending }))
                (Or.inl (hclose hcl)) d
              rw [hstop] at hx
              have hxlen := congrArg List.length hx
              rw [List.length_append] at hxlen
              omega
            obtain ⟨hc', hrun'⟩ := hgo hcl
            subst htable
            rw [← hcount] at hreqs
            have hlater := (ih hc' hrun' hrest).mp ⟨d, ⟨log', hx.symm, hreqs⟩, hwait, hsegs⟩
            rw [hperform] at hlater
            exact ⟨fun h => absurd h hcl, hlater⟩
      · rintro ⟨-, -, hbye, hrestClean⟩
        by_cases hcl : r.Closes
        · have hnil := hbye hcl
          subst hnil
          refine ⟨n0, ?_⟩
          rw [hserve]
          refine ⟨⟨events ++ [], ?_, .cons hlogged (.nil _)⟩, Or.inr (hclose hcl), hrest.eq_nil⟩
          rw [List.append_nil]
          exact hlog
        · obtain ⟨hc', hrun'⟩ := hgo hcl
          rw [← hperform] at hrestClean
          obtain ⟨n, ⟨log, hn, hframed⟩, hwait, hsegs⟩ := (ih hc' hrun' hrest).mpr hrestClean
          refine ⟨n + n0, ?_⟩
          rw [serve_add, hserve]
          refine ⟨⟨events ++ log, ?_, .cons hlogged ?_⟩, hwait, hsegs⟩
          · rw [hn, hlog, List.append_assoc]
          · rw [← hcount]
            exact hframed
    · constructor
      · rintro ⟨n, ⟨log, hn, hframed⟩, -⟩
        cases hframed with
        | cons hr hreqs =>
          exact absurd hn (serve_request_not henv ending hc r hcut0 hclean hr _ n)
      · rintro ⟨hcleanAt, hans, -⟩
        exact absurd ⟨hcleanAt, hans⟩ hclean

end Framed

/-- `VER\r\n`. -/
def verRequest : LineRequest where
  words := [ascii "VER"]
  ne_nil := by simp
  word_words := by decide
  not_add := by decide
  not_set := by decide

/-- `SET k 2 1\r\na\r\n`. -/
def setRequest : StoreRequest where
  cmd := ascii "SET"
  key := ascii "k"
  type := ascii "2"
  length := ascii "1"
  payload := ascii "a"
  command := commandWord_set
  word_cmd := word_set
  word_key := by decide
  word_type := word_two
  word_length := by decide
  type_positive := isPositiveDecimal_two
  length_positive := by decide
  length_eq := by decide

end Memuncached.Server
