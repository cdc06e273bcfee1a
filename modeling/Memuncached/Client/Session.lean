import Memuncached.Client.Misread
import Memuncached.Server.Connection

/-!
# Sessions

A connection from `memuncached_connect` on: the server sends its banner, then
one response for each request. The client takes the banner with one `recv`, so
what that call does not return is in front of the first response.

* `aligned_iff`: behind the banner every call decodes its response exactly if
  the growths of the buffer are sound.
* `session_aligned_iff`: a session is aligned exactly if, besides, the banner
  has arrived in one piece.
-/

namespace Memuncached.Client

open Segments Server

/-! ## The library -/

/-- `memuncached_connect` behind `connect` (lines 212-219): the client and what
    is left of the stream, when one is returned. -/
def memuncachedConnect (sock : Socket) : Option (MemuncachedClient × Socket) :=
  match sock.recv 100 with
  | (.data bytes, sock) => if bytes.length < 2 then none else some (clientOf 10, sock)
  | _ => none

/-- The calls that send a request and read its response. -/
inductive LibraryCall where
  | stt | ver | inc | dec | del | get | set | add | disconnect
  deriving DecidableEq, Repr

/-- `client->response.body[client->response.body_size] = 0`. -/
def MemuncachedClient.terminateBody (client : MemuncachedClient) : Option MemuncachedClient := do
  let off ← client.offset client.response.body
  if off + client.response.bodySize < client.buffer.length then
    return { client with buffer := client.buffer.set (off + client.response.bodySize) 0 }
  else none

/-- What a call does to the client when `memuncached_recv` has returned true;
    `memuncached_disconnect` frees it, so no call follows. -/
def LibraryCall.after (call : LibraryCall) (client : MemuncachedClient) :
    Option MemuncachedClient :=
  match call with
  | .ver | .inc | .dec =>
    if client.response.code = 200 then client.terminateBody else some client
  | .stt | .del | .get | .set | .add | .disconnect => some client

/-! ## Sessions -/

/-- A call, the response to its request, and how the network cuts what is then
    to be read. -/
structure Exchange where
  call : LibraryCall
  response : Response
  cut : List Byte → List (List Byte)
  ending : StreamEnd

/-- Every call decodes the response to its request and leaves nothing unread. -/
def Aligned (heap : Heap) : MemuncachedClient → (unread : List Byte) → List Exchange → Prop
  | _, _, [] => True
  | client, unread, e :: es =>
    ∃ client' sock' client'',
      RecvReturns heap client
        { segments := e.cut (unread ++ e.response.encode), ending := e.ending } true client' sock' ∧
      Decodes e.response client' ∧ sock'.segments = [] ∧ e.call.after client' = some client'' ∧
        Aligned heap client'' sock'.segments.flatten es

/-- The codes of `connection.h`. -/
def replyCodes : List (List Byte) :=
  [response200Ok, response400BadRequest, response404NotFound, response409KeyExists,
    response500ServerError].map fun response => response.take 3

/-- A response the server sends. -/
structure FromServer (r : Response) : Prop where
  sendable : Sendable r
  code : r.code ∈ replyCodes

/-- The exchange is one with the server, in any segments. -/
structure Exchange.Valid (e : Exchange) : Prop where
  response : FromServer e.response
  cut : ∀ s, Cut (e.cut s) s

/-- The growth of the buffer from `10 * 2 ^ g` bytes takes place in the first
    response that is longer, and is sound there. -/
def GrowthsOk (heap : Heap) (es : List Exchange) (g : ℕ) : Prop :=
  ∀ e, es.find? (fun e => 10 * 2 ^ g < e.response.encode.length) = some e →
    GrowthOk heap e.response (10 * 2 ^ g) g

section Sessions

variable {heap : Heap}

theorem FromServer.not_noCode {r : Response} (h : FromServer r) : ¬ NoCode (digitsVal r.code) := by
  have hall : ∀ code ∈ replyCodes, ¬ ((digitsVal code : ℤ) = 0 ∨ (digitsVal code : ℤ) = 1) := by
    decide
  exact hall r.code h.code

/-- `memuncached_recv` returns once. -/
theorem RecvReturns.unique {client c₁ c₂ : MemuncachedClient} {sock s₁ s₂ : Socket} {ok₁ ok₂ : Bool}
    (h₁ : RecvReturns heap client sock ok₁ c₁ s₁) (h₂ : RecvReturns heap client sock ok₂ c₂ s₂) :
    ok₁ = ok₂ ∧ c₁ = c₂ ∧ s₁ = s₂ := by
  obtain ⟨n₁, h₁⟩ := h₁
  obtain ⟨n₂, h₂⟩ := h₂
  have hboth : (RecvState.returned ok₁ c₁, s₁) = (RecvState.returned ok₂ c₂, s₂) := by
    unfold memuncachedRecv at h₁ h₂
    rw [← recvStep_returned heap ok₁ c₁ s₁ n₂, ← h₁, ← Function.iterate_add_apply, Nat.add_comm,
      Function.iterate_add_apply, h₂, recvStep_returned]
  injection hboth with hstate hsock
  injection hstate with hok hclient
  exact ⟨hok, hclient, hsock⟩

/-- The calls only write into the buffer. -/
theorem after_sameBlock (call : LibraryCall) {r : Response} {client : MemuncachedClient}
    (h : Decodes r client) :
    ∃ client', call.after client = some client' ∧ SameBlock client client' := by
  obtain ⟨client', hclient', hsame⟩ : ∃ client', client.terminateBody = some client' ∧
      SameBlock client client' := by
    have htrailer := h.trailer
    unfold MemuncachedClient.bytesAt at htrailer
    obtain ⟨off, hoff, hbytes⟩ := Option.bind_eq_some_iff.mp htrailer
    split_ifs at hbytes with hfit
    refine ⟨{ client with buffer := client.buffer.set (off + client.response.bodySize) 0 }, ?_,
      ⟨rfl, rfl, rfl, List.length_set⟩⟩
    rw [MemuncachedClient.terminateBody, hoff]
    simp only [Option.bind_eq_bind, Option.bind_some]
    rw [if_pos (by omega)]
    rfl
  have hcode : ∃ client',
      (if client.response.code = 200 then client.terminateBody else some client) = some client' ∧
        SameBlock client client' := by
    split_ifs
    · exact ⟨client', hclient', hsame⟩
    · exact ⟨client, rfl, SameBlock.refl client⟩
  cases call with
  | ver => exact hcode
  | inc => exact hcode
  | dec => exact hcode
  | _ => exact ⟨client, rfl, SameBlock.refl client⟩

/-- The growths of one call are the growths of the buffer between two sizes. -/
theorem sound_iff {r : Response} {client : MemuncachedClient}
    (hsize : client.bufferSize = 10 * 2 ^ client.reallocs) :
    Sound heap r client ↔
      ∀ g, client.reallocs ≤ g → 10 * 2 ^ g < r.encode.length →
        GrowthOk heap r (10 * 2 ^ g) g := by
  have hpow : ∀ k, client.bufferSize * 2 ^ k = 10 * 2 ^ (client.reallocs + k) := by
    intro k
    rw [hsize, pow_add, mul_assoc]
  constructor
  · intro h g hg hlt
    obtain ⟨k, rfl⟩ := Nat.exists_eq_add_of_le hg
    have hk := h k (by rwa [hpow])
    rwa [hpow] at hk
  · intro h k hk
    rw [hpow] at hk ⊢
    exact h _ (Nat.le_add_right _ k) hk

/-- With nothing unread every call decodes its response exactly if the growths
    still to come are sound. -/
theorem aligned_iff {es : List Exchange} (hes : ∀ e ∈ es, e.Valid) :
    ∀ {client : MemuncachedClient}, client.buffer.length = client.bufferSize →
      client.bufferSize = 10 * 2 ^ client.reallocs →
      (Aligned heap client [] es ↔ ∀ g, client.reallocs ≤ g → GrowthsOk heap es g) := by
  induction es with
  | nil =>
    intro client _ _
    refine iff_of_true trivial ?_
    intro g _ e he
    cases he
  | cons e es ih =>
    intro client hbuffer hsize
    obtain ⟨hresponse, hcut⟩ := hes e List.mem_cons_self
    have hpos : 0 < client.bufferSize := by
      rw [hsize]
      positivity
    rcases @recv_cases heap e.response hresponse.sendable client hbuffer hpos
      (e.cut e.response.encode) (hcut _) e.ending with
      ⟨hsound, client', j, hreturns, hdecodes, hgrown, hbuffer', hle⟩ | ⟨hbad, hfails⟩
    · rw [sound_iff hsize] at hsound
      obtain ⟨client'', hafter, hsame⟩ := after_sameBlock e.call hdecodes
      have hreallocs : client''.reallocs = client.reallocs + j := hsame.reallocs.trans hgrown.reallocs
      have hsize'' : client''.bufferSize = 10 * 2 ^ client''.reallocs := by
        rw [hsame.bufferSize, hgrown.bufferSize, hreallocs, hsize, pow_add, mul_assoc]
      have hrest := @ih (fun x hx => hes x (List.mem_cons_of_mem e hx)) client''
        (by rw [hsame.length, hsame.bufferSize, hbuffer']) hsize''
      have hfirst : Aligned heap client [] (e :: es) ↔ Aligned heap client'' [] es := by
        constructor
        · rintro ⟨c, s, c', hc, -, hs, hc', haligned⟩
          obtain ⟨-, rfl, rfl⟩ := hc.unique hreturns
          rw [hafter] at hc'
          injection hc' with hc'
          rwa [hc']
        · intro haligned
          exact ⟨client', _, client'', hreturns, hdecodes, rfl, hafter, haligned⟩
      rw [hfirst, hrest]
      have hlonger : ∀ g, client''.reallocs ≤ g → ¬ 10 * 2 ^ g < e.response.encode.length := by
        intro g hg
        have hpow : 2 ^ client''.reallocs ≤ 2 ^ g := Nat.pow_le_pow_right (by omega) hg
        rw [hsize, mul_assoc, ← pow_add, ← hreallocs] at hle
        omega
      constructor
      · intro h g hg e' he'
        by_cases hlt : 10 * 2 ^ g < e.response.encode.length
        · rw [List.find?_cons_of_pos (by simpa using hlt)] at he'
          injection he' with he'
          rw [← he']
          exact hsound g hg hlt
        · rw [List.find?_cons_of_neg (by simpa using hlt)] at he'
          refine h g ?_ e' he'
          by_contra hbefore
          obtain ⟨k, rfl⟩ := Nat.exists_eq_add_of_le hg
          refine hlt ?_
          have hk := (hgrown.sound k (by omega)).1
          rwa [hsize, mul_assoc, ← pow_add] at hk
      · intro h g hg e' he'
        refine h g (by omega) e' ?_
        rwa [List.find?_cons_of_neg (by simpa using hlonger g hg)]
    · refine iff_of_false ?_ fun h => hbad ?_
      · rintro ⟨c, s, c', hc, -⟩
        exact hfails.not_returns hc
      · rw [sound_iff hsize]
        intro g hg hlt
        refine h g hg e ?_
        rw [List.find?_cons_of_pos (by simpa using hlt)]

/-! ## The banner -/

/-- A rest of the banner in front of a response: the line before the first
    newline does not start with a code. -/
theorem banner_firstLine {n : ℕ} (h2 : 2 ≤ n) (hn : n < clientWelcomeMessage.length)
    (r : Response) :
    ∃ w rest, clientWelcomeMessage.drop n ++ r.encode = w ++ 10 :: rest ∧
      ((10 : Byte) ∉ r.description → (∀ b ∈ r.code, isDigit b = true) → (10 : Byte) ∉ w) ∧
      (w ≠ [] → ∀ rest, NoCode (atoi (codeText w ++ 0 :: rest))) := by
  have hlen : clientWelcomeMessage.length = 33 := by decide
  by_cases hlast : n = 32
  · -- only the terminator is left
    have hdrop : clientWelcomeMessage.drop 32 = [0] := by decide
    subst hlast
    refine ⟨0 :: (r.code ++ 32 :: r.description ++ [13]), lengthText r ++ bodyText r, ?_, ?_, ?_⟩
    · rw [hdrop, encode_eq, statusText_eq]
      simp
    · intro hdescription hcode hmem
      have hnot : (10 : Byte) ∉ r.code := fun h => (digit_ne (hcode 10 h)).1 rfl
      simp [hnot, hdescription] at hmem
    · intro _ rest
      obtain ⟨u, hu⟩ : ∃ u, codeText (0 :: (r.code ++ 32 :: r.description ++ [13])) = 0 :: u := by
        obtain ⟨k, hk⟩ : ∃ k, min 3 ((0 :: (r.code ++ 32 :: r.description ++ [13])).length - 1) =
            k + 1 := by
          refine Nat.exists_eq_succ_of_ne_zero ?_
          simp only [List.length_cons, List.length_append, List.length_nil]
          omega
        exact ⟨(r.code ++ 32 :: r.description ++ [13]).take k, by rw [codeText, hk, List.take_succ_cons]⟩
      rw [hu, atoi_terminated]
      left
      exact atoi_terminated [] u
  · have hcodes : ∀ n < 32, 2 ≤ n →
        clientWelcomeMessage.drop n = (clientWelcomeMessage.take 31).drop n ++ [10, 0] ∧
        (10 : Byte) ∉ (clientWelcomeMessage.take 31).drop n ∧
        (atoi (codeText ((clientWelcomeMessage.take 31).drop n)) = 0 ∨
          atoi (codeText ((clientWelcomeMessage.take 31).drop n)) = 1) := by
      decide
    obtain ⟨hdrop, hline, hcode⟩ := hcodes n (by omega) h2
    refine ⟨(clientWelcomeMessage.take 31).drop n, 0 :: r.encode, ?_, fun _ _ => hline, ?_⟩
    · rw [hdrop, List.append_assoc]
      rfl
    · intro _ rest
      rw [atoi_terminated]
      exact hcode

/-- The first call of a session that starts with a rest of the banner. -/
theorem not_aligned_banner {n : ℕ} (h2 : 2 ≤ n) (hn : n < clientWelcomeMessage.length)
    {e : Exchange} (he : e.Valid) (es : List Exchange) (client : MemuncachedClient) :
    ¬ Aligned heap client (clientWelcomeMessage.drop n) (e :: es) := by
  rintro ⟨client', sock', client'', hreturns, hdecodes, -⟩
  obtain ⟨w, rest, hstream, hw, hcode⟩ := banner_firstLine h2 hn e.response
  have hwf := he.response.sendable.wellFormed
  have hmisread := recv_misreads (hw hwf.description hwf.code_digits) hcode
    (by rw [← hstream]; exact he.cut _) hreturns
  rw [hdecodes.code] at hmisread
  exact he.response.not_noCode hmisread

theorem memuncachedConnect_eq_some {segs : List (List Byte)} (hcut : Cut segs clientWelcomeMessage)
    {ending : StreamEnd} {client : MemuncachedClient} {sock : Socket}
    (h : memuncachedConnect { segments := segs, ending := ending } = some (client, sock)) :
    client = clientOf 10 ∧ ∃ n, 2 ≤ n ∧ n ≤ clientWelcomeMessage.length ∧
      sock.segments.flatten = clientWelcomeMessage.drop n ∧
      (n = clientWelcomeMessage.length ↔ segs = [clientWelcomeMessage]) := by
  have hlen : clientWelcomeMessage.length = 33 := by decide
  obtain ⟨seg, rest, rfl⟩ := hcut.exists_cons (by decide)
  have hflat : seg ++ rest.flatten = clientWelcomeMessage := by
    rw [← hcut.flatten, List.flatten_cons]
  have hseg : seg.length ≤ 33 := by
    rw [← hlen, ← hflat, List.length_append]
    omega
  have hrecv : Socket.recv { segments := seg :: rest, ending := ending } 100 =
      (.data seg, { segments := rest, ending := ending }) := by
    rw [Socket.recv, if_neg (by omega), if_neg (by simp)]
    rw [Segments.read, if_pos (by omega)]
  rw [memuncachedConnect, hrecv] at h
  dsimp only at h
  split_ifs at h with hshort
  injection h with h
  injection h with hclient hsock
  refine ⟨hclient.symm, seg.length, by omega, by omega, ?_, ?_⟩
  · rw [← hsock, ← hflat, List.drop_left]
  · constructor
    · intro hall
      have hnil : rest.flatten = [] := by
        refine List.eq_nil_of_length_eq_zero ?_
        have hsum := congrArg List.length hflat
        rw [List.length_append] at hsum
        omega
      have hrest : rest = [] := by
        have htail := hcut.tail
        rw [hnil] at htail
        exact htail.eq_nil
      rw [hnil, List.append_nil] at hflat
      rw [hrest, hflat]
    · intro heq
      injection heq with heq
      rw [heq]

/-- A session is aligned exactly if the banner has arrived in one piece, unless
    there is no call, and every growth of the buffer is granted, stays an
    `int`, and does not move the block before the header is complete. -/
theorem session_aligned_iff {segs : List (List Byte)} (hcut : Cut segs clientWelcomeMessage)
    {ending : StreamEnd} {client : MemuncachedClient} {sock : Socket}
    (hconnect : memuncachedConnect { segments := segs, ending := ending } = some (client, sock))
    {es : List Exchange} (hes : ∀ e ∈ es, e.Valid) :
    Aligned heap client sock.segments.flatten es ↔
      (es ≠ [] → segs = [clientWelcomeMessage]) ∧ ∀ g, GrowthsOk heap es g := by
  obtain ⟨rfl, n, h2, hn, hunread, hwhole⟩ := memuncachedConnect_eq_some hcut hconnect
  rw [hunread, ← hwhole]
  cases es with
  | nil =>
    refine iff_of_true trivial ⟨fun h => absurd rfl h, ?_⟩
    intro g e he
    cases he
  | cons e es =>
    by_cases hall : n = clientWelcomeMessage.length
    · have hnil : clientWelcomeMessage.drop n = [] := List.drop_eq_nil_of_le (by omega)
      rw [hnil, @aligned_iff heap (e :: es) hes (clientOf 10) rfl rfl]
      constructor
      · intro h
        exact ⟨fun _ => hall, fun g => h g (Nat.zero_le g)⟩
      · intro h g _
        exact h.2 g
    · refine iff_of_false ?_ fun h => hall (h.1 (by simp))
      exact not_aligned_banner h2 (by omega) (hes e List.mem_cons_self) es _

end Sessions

/-- Everything arrives at once. -/
def cutWhole (s : List Byte) : List (List Byte) := if s = [] then [] else [s]

theorem cutWhole_cut (s : List Byte) : Cut (cutWhole s) s := by
  unfold cutWhole
  split_ifs with h
  · rw [h]
    exact Cut.nil
  · refine ⟨by simp, ?_⟩
    intro seg hseg
    rwa [List.mem_singleton.mp hseg]

/-- `VER` and its reply. -/
def verExchange : Exchange where
  call := .ver
  response := { code := ascii "200", description := ascii "OK", type := none, body := ascii "1.0" }
  cut := cutWhole
  ending := .idle

theorem verExchange_valid : verExchange.Valid where
  response :=
    { sendable :=
        { wellFormed := ⟨rfl, List.all_eq_true.mp (by decide : (ascii "200").all isDigit = true),
            by decide⟩
          type := by rintro t ⟨⟩
          length := by decide }
      code := by decide }
  cut := cutWhole_cut

theorem session_aligned_ver : Aligned Heap.growing (clientOf 10) [] [verExchange] := by
  refine (@session_aligned_iff Heap.growing [clientWelcomeMessage] ⟨by decide, by decide⟩ .idle
    (clientOf 10) { segments := [], ending := .idle } (by decide) [verExchange] ?_).mpr ⟨?_, ?_⟩
  · intro e he
    rw [List.mem_singleton.mp he]
    exact verExchange_valid
  · exact fun _ => rfl
  · intro g e he
    have hlt : 10 * 2 ^ g < e.response.encode.length := by simpa using List.find?_some he
    have hlen : e.response.encode.length ≤ 17 := by
      rw [List.mem_singleton.mp (List.mem_of_find?_eq_some he)]
      decide
    refine growthOk_inPlace (fun _ => rfl) _ ?_ g
    unfold intMax
    omega

/-- Behind a banner that arrives in two pieces the first call reads the rest of
    the banner. -/
theorem session_not_aligned :
    Cut [clientWelcomeMessage.take 10, clientWelcomeMessage.drop 10] clientWelcomeMessage ∧
      memuncachedConnect
        { segments := [clientWelcomeMessage.take 10, clientWelcomeMessage.drop 10]
          ending := .idle } =
        some (clientOf 10, { segments := [clientWelcomeMessage.drop 10], ending := .idle }) ∧
      ¬ Aligned Heap.growing (clientOf 10) (clientWelcomeMessage.drop 10) [verExchange] :=
  ⟨⟨by decide, by decide⟩, by decide,
    not_aligned_banner (by decide) (by decide) verExchange_valid [] (clientOf 10)⟩

end Memuncached.Client
