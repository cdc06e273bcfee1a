import Memuncached.Lib.Segments
import Memuncached.C.Bytes

/-!
# Sockets

The receiving end of a stream socket: the bytes arrive in segments, `recv`
returns at most as many as it is asked for and leaves the rest. Behind the last
segment the peer is idle (`recv` blocks), has closed the connection (`recv`
returns 0), or the connection has failed (`recv` returns -1).
-/

namespace Memuncached

open Segments

/-- What `recv` meets behind the last segment. -/
inductive StreamEnd where
  | idle | eof | error
  deriving DecidableEq, Repr

/-- The receiving end of a socket. -/
structure Socket where
  segments : List (List Byte)
  ending : StreamEnd
  deriving DecidableEq, Repr

/-- What a call of `recv` returns: data, 0, -1, or not yet. -/
inductive RecvResult where
  | data (bytes : List Byte)
  | eof
  | error
  | block
  deriving DecidableEq, Repr

/-- The result of `recv` once the segments are used up. -/
def StreamEnd.result : StreamEnd → RecvResult
  | .idle => .block
  | .eof => .eof
  | .error => .error

/-- `recv(fd, buffer, want, 0)`. -/
def Socket.recv (s : Socket) (want : ℕ) : RecvResult × Socket :=
  if want = 0 then (.eof, s)
  else if s.segments.isEmpty then (s.ending.result, s)
  else (.data (read want s.segments).1, { s with segments := (read want s.segments).2 })

/-- `recv` into an invalid buffer fails and leaves the data. -/
def Socket.recvNull (s : Socket) (want : ℕ) : RecvResult × Socket :=
  if want = 0 then (.eof, s)
  else if s.segments.isEmpty then (s.ending.result, s)
  else (.error, s)

/-- `recv` on a non-empty stream returns a non-empty prefix of it. -/
theorem Socket.recv_data {segs : List (List Byte)} {s : List Byte} {ending : StreamEnd}
    (h : Cut segs s) (hs : s ≠ []) {want : ℕ} (hw : 0 < want) :
    ∃ n, 0 < n ∧ n ≤ want ∧ n ≤ s.length ∧
      Socket.recv { segments := segs, ending := ending } want =
        (.data (s.take n), { segments := dropBytes n segs, ending := ending }) := by
  obtain ⟨n, h0, h1, h2, hread⟩ := h.read hs hw
  obtain ⟨seg, rest, rfl⟩ := h.exists_cons hs
  refine ⟨n, h0, h1, h2, ?_⟩
  rw [Socket.recv, if_neg (by omega), if_neg (by simp), hread]

/-- `recv` on a used-up stream. -/
theorem Socket.recv_end {ending : StreamEnd} {want : ℕ} (hw : 0 < want) :
    Socket.recv { segments := [], ending := ending } want =
      (ending.result, { segments := [], ending := ending }) := by
  rw [Socket.recv, if_neg (by omega)]
  rfl

end Memuncached
