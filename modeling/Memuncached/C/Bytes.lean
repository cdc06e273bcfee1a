import Mathlib

/-!
# Bytes and memory areas

A C `char` is a `Byte`; its sign only matters where the source promotes it to
a wider type, and those places say so. A memory area is the list of the bytes
it holds, a pointer into it an offset. `Env` is what a run finds in its
environment and does not compute: the bytes of memory nobody has written yet,
and which allocations succeed.
-/

namespace Memuncached

abbrev Byte := UInt8

/-- The bytes of a string literal, without its terminator. -/
def ascii (s : String) : List Byte := s.toList.map fun c => c.toNat.toUInt8

/-- `"\r\n"`. -/
def crlf : List Byte := [13, 10]

/-- The separators of the command line: `' '`, `'\r'` and `'\n'`. -/
def isSep (b : Byte) : Bool := b == 32 || b == 13 || b == 10

/-- `'\r'` or `'\n'`, the bytes trimmed off the end of a command line. -/
def isNewline (b : Byte) : Bool := b == 13 || b == 10

theorem isSep_of_isNewline {b : Byte} (h : isNewline b = true) : isSep b = true := by
  simp only [isNewline, isSep, Bool.or_eq_true] at *
  tauto

@[simp] theorem isSep_zero : isSep 0 = false := rfl

/-- The environment of a run: `fresh i` is the byte found at offset `i` of a
    block where the program has not written (new memory of a grown block, or
    memory behind the block), and `granted n` says whether an allocation of
    `n` bytes succeeds. -/
structure Env where
  fresh : ℕ → Byte
  granted : ℕ → Bool

/-- Every allocation succeeds. -/
def Env.AllocationsSucceed (env : Env) : Prop := ∀ n, env.granted n = true

/-- Allocations succeed and memory is zero. -/
def Env.zero : Env where
  fresh := fun _ => 0
  granted := fun _ => true

theorem Env.zero_allocationsSucceed : Env.zero.AllocationsSucceed := fun _ => rfl

/-! ## Strings and stores -/

/-- The C string at the start of a memory area. -/
def cstr (mem : List Byte) : List Byte := mem.takeWhile (· ≠ 0)

/-- Write `bytes` at offset `off`; what falls outside the area is not part of
    the result. -/
def store (mem : List Byte) (off : ℕ) (bytes : List Byte) : List Byte :=
  mem.take off ++ bytes.take (mem.length - off) ++ mem.drop (off + bytes.length)

@[simp] theorem length_store (mem : List Byte) (off : ℕ) (bytes : List Byte) :
    (store mem off bytes).length = mem.length := by
  simp only [store, List.length_append, List.length_take, List.length_drop]
  omega

/-- A store right behind a written prefix extends the prefix. -/
theorem store_append {pre rest bytes : List Byte} {off : ℕ} (hoff : off = pre.length)
    (hlen : bytes.length ≤ rest.length) :
    store (pre ++ rest) off bytes = pre ++ bytes ++ rest.drop bytes.length := by
  subst hoff
  have h1 : (pre ++ rest).length - pre.length = rest.length := by simp
  have h2 : (pre ++ rest).drop (pre.length + bytes.length) = rest.drop bytes.length := by
    rw [← List.drop_drop, List.drop_left]
  rw [store, List.take_left, h1, List.take_of_length_le hlen, h2]

/-- A store that reaches past the end of the area fills it. -/
theorem store_append_overflow {pre rest bytes : List Byte} {off : ℕ} (hoff : off = pre.length)
    (hlen : rest.length ≤ bytes.length) :
    store (pre ++ rest) off bytes = pre ++ bytes.take rest.length := by
  subst hoff
  have h1 : (pre ++ rest).length - pre.length = rest.length := by simp
  have h2 : (pre ++ rest).drop (pre.length + bytes.length) = [] :=
    List.drop_eq_nil_of_le (by rw [List.length_append]; omega)
  rw [store, List.take_left, h1, h2, List.append_nil]

theorem cstr_append_zero {w rest : List Byte} (hw : (0 : Byte) ∉ w) :
    cstr (w ++ 0 :: rest) = w := by
  have hall : ∀ b ∈ w, decide (b ≠ 0) = true := by
    intro b hb
    exact decide_eq_true (fun h => hw (h ▸ hb))
  rw [cstr, List.takeWhile_append_of_pos hall]
  simp

/-- One of the stores, each an offset and the bytes written there, writes the
    byte at `i`. -/
def Written (stores : List (ℕ × List Byte)) (i : ℕ) : Prop :=
  ∃ s ∈ stores, s.1 ≤ i ∧ i < s.1 + s.2.length

/-- Every byte the stores write lies in an area of `size` bytes. -/
def StoresWithin (size : ℕ) (stores : List (ℕ × List Byte)) : Prop :=
  ∀ i, Written stores i → i < size

@[simp] theorem written_nil (i : ℕ) : ¬ Written [] i := by
  rintro ⟨s, hs, -⟩
  exact List.not_mem_nil hs

@[simp] theorem written_cons (s : ℕ × List Byte) (stores : List (ℕ × List Byte)) (i : ℕ) :
    Written (s :: stores) i ↔ (s.1 ≤ i ∧ i < s.1 + s.2.length) ∨ Written stores i := by
  simp only [Written, List.mem_cons, exists_eq_or_imp]

end Memuncached
