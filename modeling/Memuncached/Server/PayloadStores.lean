import Memuncached.Server.StoreRequest

/-!
# The stores into the payload buffer

`memuncached_set` with a trace of where it writes into its payload buffer and of
how many bytes behind the header line it has taken, over any sequence of
positive results of `recv`.

* `Traced.recv_sound`: a `recv` with some of the buffer left stays inside it.
* `staysInBuffer_iff`: all stores do, and the whole payload is taken, if no more
  bytes came with the header line than the buffer holds, only.
-/

namespace Memuncached.Server

/-! ## Traces -/

/-- A store of `len` bytes from offset `off` of the payload buffer on. -/
structure BufferStore where
  off : ℤ
  len : ℕ
  deriving DecidableEq, Repr

/-- Every byte of the store is inside a buffer of `size` bytes. -/
def BufferStore.Inside (size : ℤ) (w : BufferStore) : Prop := 0 ≤ w.off ∧ w.off + w.len ≤ size

/-- `memuncached_set` with its stores so far and the bytes taken from the stream
    behind the header line. -/
structure Traced (R : Type) where
  state : CommandState R
  stores : List BufferStore
  taken : ℕ

section Stores

variable {R : Type} [CacheValueReal R]

/-- The `memcpy` of the chunk (connection.c, lines 431-433). -/
def chunkStores (payloadChunkSize : ℕ) : List BufferStore :=
  if 0 < payloadChunkSize then [{ off := 0, len := payloadChunkSize }] else []

/-- The stores at the end of the payload loop: the terminators, unless the loop
    goes on or the key exists (connection.c, lines 437 and 448-455). -/
def loopStores (table : HashTable R) (key : List Byte) (overwrite : Bool) (vLength vLen : ℤ) :
    List BufferStore :=
  if 0 < vLen then []
  else if overwrite = true ∨ hashTableGet table key = none then
    [{ off := vLength, len := 1 }, { off := vLength + 1, len := 1 }]
  else []

/-- The store of a `recv` (connection.c, line 439). -/
def recvStore (p : PayloadRead) (bytes : List Byte) : BufferStore where
  off := p.vLength + 2 - p.vLen
  len := bytes.length

/-- `memuncached_set` up to its first `recv`. -/
def Traced.start (env : Env) (table : HashTable R) (key type length chunk : List Byte)
    (overwrite : Bool) : Traced R where
  state := memuncachedSet env table key type length chunk overwrite
  stores := chunkStores chunk.length ++
    loopStores table key overwrite (atoi length) (atoi length + 2 - chunk.length)
  taken := chunk.length

/-- A `recv` that returns `bytes` and what follows it. -/
def Traced.recv (table : HashTable R) (s : Traced R) (bytes : List Byte) : Traced R :=
  match s.state with
  | .recv p =>
    { state := payloadRecv table p (.data bytes)
      stores := s.stores ++ recvStore p bytes ::
        loopStores table p.key p.overwrite p.vLength (p.vLen - bytes.length)
      taken := s.taken + bytes.length }
  | .done _ _ _ | .fault => s

/-- The command after the results `recvs`. -/
def Traced.run (table : HashTable R) (s : Traced R) (recvs : List (List Byte)) : Traced R :=
  recvs.foldl (Traced.recv table) s

/-- Positive results of at most the bytes asked for. -/
def PositiveRecvs (table : HashTable R) : Traced R → List (List Byte) → Prop
  | _, [] => True
  | s, bytes :: recvs =>
    (∀ p, s.state = .recv p → 0 < bytes.length ∧ (bytes.length : ℤ) ≤ p.vLen) ∧
      PositiveRecvs table (s.recv table bytes) recvs

/-- Over all sequences of positive results, the stores are inside the buffer of
    `size` bytes and the finished command has taken `size` bytes. -/
def StaysInBuffer (table : HashTable R) (size : ℤ) (s : Traced R) : Prop :=
  ∀ recvs, PositiveRecvs table s recvs →
    (∀ w ∈ (s.run table recvs).stores, w.Inside size) ∧
      ((∀ p, (s.run table recvs).state ≠ .recv p) → (s.run table recvs).taken = size)

/-! ## The payload loop -/

/-- All stores so far are inside the buffer, and what is not taken yet is what
    the loop still asks for. -/
structure Traced.Sound (size : ℤ) (s : Traced R) : Prop where
  inside : ∀ w ∈ s.stores, w.Inside size
  waiting : ∀ p, s.state = .recv p →
    p.vLength + 2 = size ∧ 0 ≤ p.vLength ∧ 0 < p.vLen ∧ (s.taken : ℤ) + p.vLen = size
  finished : (∀ p, s.state ≠ .recv p) → (s.taken : ℤ) = size

omit [CacheValueReal R] in
theorem loopStores_inside {table : HashTable R} {key : List Byte} {overwrite : Bool}
    {vLength vLen : ℤ} (h0 : 0 ≤ vLength) :
    ∀ w ∈ loopStores table key overwrite vLength vLen, w.Inside (vLength + 2) := by
  intro w hw
  unfold loopStores at hw
  split_ifs at hw
  · simp at hw
  · rcases List.mem_pair.mp hw with rfl | rfl
    · show 0 ≤ vLength ∧ vLength + ((1 : ℕ) : ℤ) ≤ vLength + 2
      omega
    · show 0 ≤ vLength + 1 ∧ vLength + 1 + ((1 : ℕ) : ℤ) ≤ vLength + 2
      omega
  · simp at hw

/-- A positive `recv` keeps the trace sound. -/
theorem Traced.recv_sound {table : HashTable R} {size : ℤ} {s : Traced R} (hs : s.Sound size)
    {bytes : List Byte}
    (hbytes : ∀ p, s.state = .recv p → 0 < bytes.length ∧ (bytes.length : ℤ) ≤ p.vLen) :
    (s.recv table bytes).Sound size := by
  obtain ⟨state, stores, taken⟩ := s
  cases state with
  | done events table' running => exact hs
  | fault => exact hs
  | recv p =>
    obtain ⟨hsize, h0, hpos, htaken⟩ := hs.waiting p rfl
    obtain ⟨hlen, hle⟩ := hbytes p rfl
    have hinside : ∀ w ∈ stores, w.Inside size := hs.inside
    dsimp only at htaken
    refine ⟨?_, ?_, ?_⟩
    · intro w hw
      rcases List.mem_append.mp hw with hw | hw
      · exact hinside w hw
      · rcases List.mem_cons.mp hw with rfl | hw
        · show 0 ≤ p.vLength + 2 - p.vLen ∧ p.vLength + 2 - p.vLen + bytes.length ≤ size
          omega
        · rw [← hsize]
          exact loopStores_inside h0 w hw
    · intro q hq
      obtain ⟨rfl, hpos'⟩ := payloadLoop_eq_recv (show payloadLoop table _ = .recv q from hq)
      refine ⟨hsize, h0, hpos', ?_⟩
      show ((taken + bytes.length : ℕ) : ℤ) + (p.vLen - bytes.length) = size
      omega
    · intro hdone
      show ((taken + bytes.length : ℕ) : ℤ) = size
      by_contra hne
      refine hdone _ (payloadLoop_of_pos table ?_)
      show 0 < p.vLen - bytes.length
      omega

theorem Traced.run_sound {table : HashTable R} {size : ℤ} {s : Traced R} (hs : s.Sound size)
    {recvs : List (List Byte)} (h : PositiveRecvs table s recvs) :
    (s.run table recvs).Sound size := by
  induction recvs generalizing s with
  | nil => exact hs
  | cons bytes recvs ih => exact ih (Traced.recv_sound hs h.1) h.2

/-! ## `memuncached_set` -/

variable {env : Env} {table : HashTable R} {key type length chunk : List Byte} {overwrite : Bool}

/-- The trace is sound before the first `recv` if the chunk fits. -/
theorem Traced.start_sound (henv : env.AllocationsSucceed) {n : ℕ} (hv : atoi length = n)
    (hn : (n : ℤ) + 2 ≤ intMax) (hk : chunk.length ≤ n + 2) :
    (Traced.start env table key type length chunk overwrite).Sound ((n : ℤ) + 2) := by
  have hstate : (Traced.start env table key type length chunk overwrite).state =
      payloadLoop table _ := memuncachedSet_eq henv table key type hv hn hk overwrite
  refine ⟨?_, ?_, ?_⟩
  · intro w hw
    rcases List.mem_append.mp hw with hw | hw
    · unfold chunkStores at hw
      split_ifs at hw
      · rw [List.mem_singleton.mp hw]
        show 0 ≤ (0 : ℤ) ∧ 0 + (chunk.length : ℤ) ≤ n + 2
        omega
      · simp at hw
    · rw [hv] at hw
      exact loopStores_inside (by omega) w hw
  · intro p hp
    rw [hstate] at hp
    obtain ⟨rfl, hpos⟩ := payloadLoop_eq_recv hp
    refine ⟨rfl, Int.natCast_nonneg n, hpos, ?_⟩
    show (chunk.length : ℤ) + ((n : ℤ) + 2 - chunk.length) = n + 2
    omega
  · intro hdone
    rw [hstate] at hdone
    show (chunk.length : ℤ) = n + 2
    by_contra hne
    refine hdone _ (payloadLoop_of_pos table ?_)
    show 0 < (n : ℤ) + 2 - chunk.length
    omega

/-- `memuncached_set` stays inside its payload buffer and takes the payload and
    two bytes if at most that many came with the header line, only. -/
theorem staysInBuffer_iff (henv : env.AllocationsSucceed) (table : HashTable R)
    (key type chunk : List Byte) (overwrite : Bool) {n : ℕ} (hv : atoi length = n)
    (hn : (n : ℤ) + 2 ≤ intMax) :
    StaysInBuffer table ((n : ℤ) + 2) (Traced.start env table key type length chunk overwrite) ↔
      chunk.length ≤ n + 2 := by
  constructor
  · intro h
    obtain ⟨hinside, -⟩ := h [] trivial
    by_contra hk
    have hmem : ({ off := 0, len := chunk.length } : BufferStore) ∈
        (Traced.start env table key type length chunk overwrite).stores := by
      apply List.mem_append_left
      rw [chunkStores, if_pos (by omega)]
      exact List.mem_singleton.mpr rfl
    have hle : (0 : ℤ) + (chunk.length : ℤ) ≤ n + 2 := (hinside _ hmem).2
    omega
  · intro hk recvs hrecvs
    have hsound := Traced.run_sound (Traced.start_sound henv hv hn hk) hrecvs
    exact ⟨hsound.inside, hsound.finished⟩

end Stores

/-- A chunk of two bytes for a payload of one. -/
theorem staysInBuffer_two :
    StaysInBuffer (hashTableCreate ℚ 1 Nat.one_pos) ((1 : ℕ) + 2)
      (Traced.start Env.zero (hashTableCreate ℚ 1 Nat.one_pos) (ascii "a") (ascii "2") (ascii "1")
        (ascii "x\r") true) :=
  (staysInBuffer_iff Env.zero_allocationsSucceed _ _ _ _ true (n := 1) (by decide) (by decide)).mpr
    (by decide)

/-- Seven bytes that came with the header line of an empty payload. -/
theorem not_staysInBuffer_seven :
    ¬ StaysInBuffer (hashTableCreate ℚ 1 Nat.one_pos) ((0 : ℕ) + 2)
      (Traced.start Env.zero (hashTableCreate ℚ 1 Nat.one_pos) (ascii "a") (ascii "2") (ascii "0")
        (ascii "\r\nVER\r\n") true) := by
  intro h
  obtain ⟨hinside, -⟩ := h [] trivial
  have hlen := (hinside { off := 0, len := 7 } (by decide)).2
  exact absurd hlen (by decide)

end Memuncached.Server
