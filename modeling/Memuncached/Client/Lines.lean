import Memuncached.Client.Recv
import Memuncached.Server.OneReply

/-!
# The header of a response, line by line

What the two line parsers of `memuncached_recv` do with a response of the
server of which a prefix is in the buffer: nothing until their line is there,
then the fields of the line.

* `Holds r m k l`: `m` bytes of the response have been read and `k` of its
  lines parsed.
* `statusLine_short`, `statusLine_full`, `lengthLine_short`, `lengthLine_full`.
-/

namespace Memuncached.Client

open Segments Server

/-! ## Scanning and parsing -/

theorem scanNewline_cons (b : Byte) (rest : List Byte) (itr : ℕ) :
    scanNewline (b :: rest) itr = if b == 10 then some itr else scanNewline rest (itr + 1) := rfl

theorem scanLength_cons (b : Byte) (rest : List Byte) (itr : ℕ) (whitespace : Option ℕ) :
    scanLength (b :: rest) itr whitespace =
      if b == 10 then some (itr, if b == 32 then some itr else whitespace)
      else scanLength rest (itr + 1) (if b == 32 then some itr else whitespace) := rfl

theorem scanNewline_none {w : List Byte} (hw : (10 : Byte) ∉ w) (itr : ℕ) :
    scanNewline w itr = none := by
  induction w generalizing itr with
  | nil => rfl
  | cons b rest ih =>
    have hb : b ≠ 10 := fun h => hw (by simp [h])
    rw [scanNewline_cons, if_neg (by simpa using hb)]
    exact ih (fun h => hw (List.mem_cons_of_mem b h)) _

theorem scanNewline_append {w : List Byte} (hw : (10 : Byte) ∉ w) (rest : List Byte) (itr : ℕ) :
    scanNewline (w ++ 10 :: rest) itr = some (itr + w.length) := by
  induction w generalizing itr with
  | nil => rfl
  | cons b w ih =>
    have hb : b ≠ 10 := fun h => hw (by simp [h])
    rw [List.cons_append, scanNewline_cons, if_neg (by simpa using hb),
      ih (fun h => hw (List.mem_cons_of_mem b h)), List.length_cons]
    congr 1
    omega

theorem scanLength_none {w : List Byte} (hw : (10 : Byte) ∉ w) (itr : ℕ)
    (whitespace : Option ℕ) : scanLength w itr whitespace = none := by
  induction w generalizing itr whitespace with
  | nil => rfl
  | cons b rest ih =>
    have hb : b ≠ 10 := fun h => hw (by simp [h])
    rw [scanLength_cons, if_neg (by simpa using hb)]
    exact ih (fun h => hw (List.mem_cons_of_mem b h)) _ _

/-- The scan goes over a text without blank and newline. -/
theorem scanLength_append {w : List Byte} (hw : ∀ b ∈ w, b ≠ 10 ∧ b ≠ 32) (rest : List Byte)
    (itr : ℕ) (whitespace : Option ℕ) :
    scanLength (w ++ rest) itr whitespace = scanLength rest (itr + w.length) whitespace := by
  induction w generalizing itr with
  | nil => rfl
  | cons b w ih =>
    obtain ⟨h10, h32⟩ := hw b List.mem_cons_self
    rw [List.cons_append, scanLength_cons, if_neg (by simpa using h10),
      if_neg (by simpa using h32), ih (fun x hx => hw x (List.mem_cons_of_mem b hx)), List.length_cons]
    congr 1
    omega

theorem set_append_length (pre : List Byte) (b c : Byte) (rest : List Byte) :
    (pre ++ b :: rest).set pre.length c = pre ++ c :: rest := by
  simp

theorem atoi_digits {w rest : List Byte} (hne : w ≠ []) (hw : ∀ b ∈ w, isDigit b = true)
    (hrest : ∀ b ∈ rest.head?, isDigit b = false) (hmax : (digitsVal w : ℤ) ≤ intMax) :
    atoi (w ++ rest) = digitsVal w := by
  have hmin : min int64Max (digitsVal w : ℤ) = digitsVal w := by
    unfold intMax at hmax
    unfold int64Max
    omega
  rw [atoi, strtol_digits hne hw hrest, hmin, toInt_of_range (by omega) hmax]

/-- `atoi` of digits and a non-digit in a block. -/
theorem atoiAt_digits {pre w rest : List Byte} {b : Byte} {off : ℕ} (hoff : off = pre.length)
    (hne : w ≠ []) (hw : ∀ b ∈ w, isDigit b = true) (hb : isDigit b = false)
    (hmax : (digitsVal w : ℤ) ≤ intMax) :
    atoiAt (pre ++ (w ++ b :: rest)) off = some (digitsVal w : ℤ) := by
  subst hoff
  have hend : (w ++ b :: rest).dropWhile isDigit = b :: rest := by
    rw [List.dropWhile_append_of_pos hw, List.dropWhile_cons_of_neg (by simp [hb])]
  rw [atoiAt, List.drop_left, splitSign_digits hne hw, if_neg (by rw [hend]; simp),
    atoi_digits hne hw (by simpa using hb) hmax]

theorem digit_ne {b : Byte} (h : isDigit b = true) : b ≠ 10 ∧ b ≠ 32 := by
  constructor
  · rintro rfl
    exact absurd h (by decide)
  · rintro rfl
    exact absurd h (by decide)

/-! ## The lines of a response -/

/-- CODE and DESCRIPTION, LENGTH and TYPE, and what follows the header. -/
def statusText (r : Response) : List Byte := r.code ++ 32 :: r.description ++ crlf

def lengthText (r : Response) : List Byte :=
  decimalDigits r.body.length ++ encodeType r.type ++ crlf

def bodyText (r : Response) : List Byte := r.body ++ 0 :: crlf

/-- The lines with the terminators of `memuncached_recv`. -/
def statusParsed (r : Response) : List Byte := r.code ++ 0 :: r.description ++ [0, 10]

def typeParsed : Option ℕ → List Byte
  | none => []
  | some type => 0 :: decimalDigits type

def lengthParsed (r : Response) : List Byte :=
  decimalDigits r.body.length ++ typeParsed r.type ++ [0, 10]

/-- The lengths of the first line and of both lines. -/
def statusLen (r : Response) : ℕ := (statusText r).length

def headerLen (r : Response) : ℕ := statusLen r + (lengthText r).length

theorem encode_eq (r : Response) : r.encode = statusText r ++ (lengthText r ++ bodyText r) := by
  simp [Response.encode, statusText, lengthText, bodyText]

theorem length_encode (r : Response) : r.encode.length = headerLen r + r.body.length + 3 := by
  rw [encode_eq]
  simp only [bodyText, crlf, headerLen, statusLen, List.length_append, List.length_cons,
    List.length_nil]
  omega

theorem length_statusParsed (r : Response) : (statusParsed r).length = statusLen r := by
  simp [statusParsed, statusLen, statusText, crlf]

theorem length_lengthParsed (r : Response) : (lengthParsed r).length = (lengthText r).length := by
  unfold lengthParsed lengthText
  cases r.type with
  | none => simp [typeParsed, encodeType, crlf]
  | some type => simp [typeParsed, encodeType, crlf]

/-- What the first `k` lines have become, and what is behind them. -/
def parsed (r : Response) : ℕ → List Byte
  | 0 => []
  | 1 => statusParsed r
  | _ => statusParsed r ++ lengthParsed r

def unparsed (r : Response) : ℕ → List Byte
  | 0 => statusText r ++ (lengthText r ++ bodyText r)
  | 1 => lengthText r ++ bodyText r
  | _ => bodyText r

def parsedLen (r : Response) : ℕ → ℕ
  | 0 => 0
  | 1 => statusLen r
  | _ => headerLen r

theorem length_parsed (r : Response) (k : ℕ) : (parsed r k).length = parsedLen r k := by
  match k with
  | 0 => rfl
  | 1 => exact length_statusParsed r
  | k + 2 =>
    simp only [parsed, parsedLen, headerLen, List.length_append, length_statusParsed,
      length_lengthParsed]

/-- What is unread of the response is unread of its unparsed part. -/
theorem drop_encode (r : Response) {k m : ℕ} (hm : parsedLen r k ≤ m) :
    r.encode.drop m = (unparsed r k).drop (m - parsedLen r k) := by
  rw [encode_eq]
  match k with
  | 0 => rfl
  | 1 =>
    have hm : (statusText r).length ≤ m := hm
    show _ = (lengthText r ++ bodyText r).drop (m - (statusText r).length)
    rw [List.drop_append, List.drop_eq_nil_of_le hm, List.nil_append]
  | k + 2 =>
    have hm : (statusText r).length + (lengthText r).length ≤ m := hm
    show _ = (bodyText r).drop (m - ((statusText r).length + (lengthText r).length))
    rw [List.drop_append, List.drop_eq_nil_of_le (by omega), List.nil_append, List.drop_append,
      List.drop_eq_nil_of_le (by omega), List.nil_append, Nat.sub_sub]

theorem length_unparsed (r : Response) (k : ℕ) :
    parsedLen r k + (unparsed r k).length = r.encode.length := by
  have h := congrArg List.length (drop_encode r (le_refl (parsedLen r k)))
  have hle : parsedLen r k ≤ r.encode.length := by
    rw [length_encode]
    match k with
    | 0 => exact Nat.zero_le _
    | 1 => simp only [parsedLen, headerLen]; omega
    | k + 2 => simp only [parsedLen]; omega
  rw [Nat.sub_self, List.drop_zero, List.length_drop] at h
  omega

/-- A response as the server sends it, with a length that is an `int`. -/
structure Sendable (r : Response) : Prop where
  wellFormed : r.WellFormed
  type : ∀ t ∈ r.type, t < 128
  length : (r.encode.length : ℤ) ≤ intMax

/-! ## The state between the lines -/

/-- `m` bytes of the response have been read, the first `k` lines parsed; the
    clauses `status` and `header` are about the fields of the lines. -/
structure Holds (r : Response) (m k : ℕ) (l : RecvLoop) : Prop where
  lineNumber : l.lineNumber = k
  totalSize : l.totalSize = m
  parsed_le : parsedLen r k ≤ m
  buffer : ∃ tail, l.client.buffer =
    parsed r k ++ ((unparsed r k).take (m - parsedLen r k) ++ tail)
  le_encode : m ≤ r.encode.length
  lineStart : k < 2 → l.client.offset l.lineStart = some (parsedLen r k)
  untyped : k < 2 → l.client.response.bodyType = 0
  status : 1 ≤ k → l.client.response.code = digitsVal r.code ∧
    l.client.response.description = .into l.client.block 4
  header : 2 ≤ k → l.client.response.bodySize = r.body.length ∧
    l.client.response.body = .into l.client.block (headerLen r) ∧
      l.client.response.bodyType = Int8.ofInt (r.type.getD 0 : ℕ)

/-- The buffer is the same block, of the same size. -/
structure SameBlock (client client' : MemuncachedClient) : Prop where
  block : client'.block = client.block
  bufferSize : client'.bufferSize = client.bufferSize
  reallocs : client'.reallocs = client.reallocs
  length : client'.buffer.length = client.buffer.length

theorem SameBlock.refl (client : MemuncachedClient) : SameBlock client client :=
  ⟨rfl, rfl, rfl, rfl⟩

theorem SameBlock.trans {a b c : MemuncachedClient} (hab : SameBlock a b) (hbc : SameBlock b c) :
    SameBlock a c :=
  ⟨hbc.block.trans hab.block, hbc.bufferSize.trans hab.bufferSize,
    hbc.reallocs.trans hab.reallocs, hbc.length.trans hab.length⟩

section Lines

variable {r : Response} {m k : ℕ} {l : RecvLoop}

/-- The bytes between `line_start` and `itr_end`. -/
theorem Holds.window (h : Holds r m k l) :
    (l.client.buffer.take l.totalSize).drop (parsedLen r k) =
      (unparsed r k).take (m - parsedLen r k) := by
  obtain ⟨tail, htail⟩ := h.buffer
  have hlen := length_unparsed r k
  have hle := h.parsed_le
  have hm := h.le_encode
  have hpre : (parsed r k ++ (unparsed r k).take (m - parsedLen r k)).length = m := by
    rw [List.length_append, length_parsed, List.length_take]
    omega
  rw [h.totalSize, htail, ← List.append_assoc, List.take_left' hpre,
    ← length_parsed r k, List.drop_left]

/-- A received prefix that ends before the newline has none. -/
theorem newline_not_mem_take {w rest : List Byte} (hw : (10 : Byte) ∉ w) {n : ℕ}
    (hn : n < w.length + 1) : (10 : Byte) ∉ (w ++ 10 :: rest).take n := by
  rw [List.take_append_of_le_length (by omega)]
  exact fun h => hw (List.mem_of_mem_take h)

theorem statusText_eq (r : Response) :
    statusText r = (r.code ++ 32 :: r.description ++ [13]) ++ [10] := by
  simp [statusText, crlf]

theorem newline_not_mem_status (hr : r.WellFormed) :
    (10 : Byte) ∉ r.code ++ 32 :: r.description ++ [13] := by
  have hcode : (10 : Byte) ∉ r.code := fun h => (digit_ne (hr.code_digits 10 h)).1 rfl
  simp [hcode, hr.description]

theorem statusLine_short (hr : r.WellFormed) (h : Holds r m 0 l) (hm : m < statusLen r) :
    l.statusLine = some l := by
  have hnone : scanNewline ((l.client.buffer.take l.totalSize).drop 0) 0 = none := by
    have hwindow := h.window
    simp only [parsedLen, unparsed, Nat.sub_zero] at hwindow
    rw [hwindow, statusText_eq, List.append_assoc]
    refine scanNewline_none (newline_not_mem_take (newline_not_mem_status hr) ?_) 0
    unfold statusLen at hm
    rw [statusText_eq, List.length_append] at hm
    exact hm
  rw [RecvLoop.statusLine, if_pos h.lineNumber, h.lineStart (by decide)]
  simp only [Option.bind_eq_bind, Option.bind_some, parsedLen, hnone]
  rfl

/-- The first line in the buffer becomes `statusParsed`. -/
theorem set_statusText (hr : r.WellFormed) (rest : List Byte) :
    ((statusText r ++ rest).set (statusLen r - 1 - 1) 0).set 3 0 = statusParsed r ++ rest := by
  have hpre : statusLen r - 1 - 1 = (r.code ++ 32 :: r.description).length := by
    simp only [statusLen, statusText, crlf, List.length_append, List.length_cons, List.length_nil]
    omega
  have htext : statusText r ++ rest = (r.code ++ 32 :: r.description) ++ 13 :: 10 :: rest := by
    simp [statusText, crlf]
  rw [htext, hpre, set_append_length, List.append_assoc, List.cons_append, ← hr.code_length,
    set_append_length]
  simp [statusParsed]

theorem statusLine_full (hr : r.WellFormed) (h : Holds r m 0 l) (hm : statusLen r ≤ m) :
    ∃ l', l.statusLine = some l' ∧ Holds r m 1 l' ∧ SameBlock l.client l'.client ∧
      l'.readSize = l.readSize ∧ l'.payloadReadSize = l.payloadReadSize := by
  obtain ⟨tail, htail⟩ := h.buffer
  have hlen : (r.code ++ 32 :: r.description ++ [13]).length = statusLen r - 1 := by
    simp [statusLen, statusText, crlf]
  have hlong : 6 ≤ statusLen r := by
    simp only [statusLen, statusText, crlf, List.length_append, List.length_cons, List.length_nil,
      hr.code_length]
    omega
  -- the whole line is in the window, and the newline at its end is the first
  have htake : (unparsed r 0).take m = statusText r ++ (unparsed r 1).take (m - statusLen r) := by
    show (statusText r ++ unparsed r 1).take m = _
    rw [List.take_append, List.take_of_length_le hm]
    rfl
  have hscan : scanNewline ((l.client.buffer.take l.totalSize).drop 0) 0 =
      some (statusLen r - 1) := by
    have hwindow := h.window
    simp only [parsedLen, Nat.sub_zero] at hwindow
    rw [hwindow, htake, statusText_eq, List.append_assoc, List.singleton_append,
      scanNewline_append (newline_not_mem_status hr), hlen, Nat.zero_add]
  have hbuffer : l.client.buffer =
      statusText r ++ ((unparsed r 1).take (m - statusLen r) ++ tail) := by
    rw [htail]
    show [] ++ ((unparsed r 0).take m ++ tail) = _
    rw [htake, List.nil_append, List.append_assoc]
  have hset := set_statusText hr ((unparsed r 1).take (m - statusLen r) ++ tail)
  have hcode : atoiAt (statusParsed r ++ ((unparsed r 1).take (m - statusLen r) ++ tail)) 0 =
      some (digitsVal r.code : ℤ) := by
    have hlt := digitsVal_lt hr.code_digits
    rw [hr.code_length] at hlt
    have hnum := @atoiAt_digits [] r.code
      (r.description ++ [0, 10] ++ ((unparsed r 1).take (m - statusLen r) ++ tail)) 0 0 rfl
      (List.ne_nil_of_length_pos (by rw [hr.code_length]; omega)) hr.code_digits rfl
      (by unfold intMax; omega)
    rw [← hnum]
    simp [statusParsed]
  have hfit : ¬(statusLen r - 1 = 0 ∨ l.client.buffer.length ≤ 0 + 3) := by
    rw [hbuffer, List.length_append]
    show ¬(statusLen r - 1 = 0 ∨ statusLen r + _ ≤ 0 + 3)
    omega
  rw [RecvLoop.statusLine, if_pos h.lineNumber, h.lineStart (by decide)]
  simp only [Option.bind_eq_bind, Option.bind_some, parsedLen, hscan]
  rw [if_neg hfit, hbuffer, Nat.zero_add, hset, hcode]
  refine ⟨_, rfl, ?_, ⟨rfl, rfl, rfl, ?_⟩, rfl, rfl⟩
  · constructor
    case lineNumber => rfl
    case totalSize => exact h.totalSize
    case parsed_le => exact hm
    case buffer => exact ⟨tail, rfl⟩
    case le_encode => exact h.le_encode
    case lineStart =>
      intro _
      have hstart : statusLen r - 1 + 1 = statusLen r := by omega
      simp [MemuncachedClient.offset, parsedLen, hstart]
    case untyped => exact fun _ => h.untyped (by decide)
    case status => exact fun _ => ⟨rfl, rfl⟩
    case header => exact fun h2 => absurd h2 (by decide)
  · simp only [hbuffer, List.length_append, length_statusParsed, statusLen]

/-! ## The second line -/

theorem lengthText_eq (r : Response) :
    lengthText r = (decimalDigits r.body.length ++ encodeType r.type ++ [13]) ++ [10] := by
  simp [lengthText, crlf]

theorem newline_not_mem_length (r : Response) :
    (10 : Byte) ∉ decimalDigits r.body.length ++ encodeType r.type ++ [13] := by
  have hdigits : ∀ n, (10 : Byte) ∉ decimalDigits n := fun n hmem =>
    (digit_ne (isDigit_of_mem_decimalDigits n 10 hmem)).1 rfl
  cases r.type with
  | none => simp [encodeType, hdigits]
  | some type => simp [encodeType, hdigits]

theorem lengthLine_short (h : Holds r m 1 l) (hm : m < headerLen r) : l.lengthLine = some l := by
  have hnone : scanLength ((l.client.buffer.take l.totalSize).drop (statusLen r)) (statusLen r)
      none = none := by
    have hwindow := h.window
    simp only [parsedLen, unparsed] at hwindow
    rw [hwindow, lengthText_eq, List.append_assoc]
    refine scanLength_none (newline_not_mem_take (newline_not_mem_length r) ?_) _ none
    unfold headerLen at hm
    rw [lengthText_eq, List.length_append] at hm
    simp only [List.length_singleton] at hm
    have hle : statusLen r ≤ m := h.parsed_le
    omega
  rw [RecvLoop.lengthLine, if_pos h.lineNumber, h.lineStart (by decide)]
  simp only [Option.bind_eq_bind, Option.bind_some, parsedLen, hnone]
  rfl

/-- The scan of a whole second line. -/
theorem scanLength_lengthText (r : Response) (rest : List Byte) (itr : ℕ) :
    scanLength (lengthText r ++ rest) itr none =
      some (itr + (lengthText r).length - 1,
        r.type.map fun _ => itr + (decimalDigits r.body.length).length) := by
  have hdigits : ∀ n, ∀ b ∈ decimalDigits n, b ≠ 10 ∧ b ≠ 32 := fun n b hb =>
    digit_ne (isDigit_of_mem_decimalDigits n b hb)
  have hcr : ∀ n, ∀ b ∈ decimalDigits n ++ [13], b ≠ 10 ∧ b ≠ 32 := by
    intro n b hb
    rcases List.mem_append.mp hb with hb | hb
    · exact hdigits n b hb
    · rw [List.mem_singleton.mp hb]
      decide
  unfold lengthText
  cases r.type with
  | none =>
    have htext : decimalDigits r.body.length ++ encodeType none ++ crlf ++ rest =
        (decimalDigits r.body.length ++ [13]) ++ 10 :: rest := by simp [encodeType, crlf]
    rw [htext, scanLength_append (hcr _), scanLength_cons]
    simp only [encodeType, crlf, List.length_append, List.length_cons, List.length_nil,
      List.append_nil, Option.map_none]
    rfl
  | some type =>
    have htext : decimalDigits r.body.length ++ encodeType (some type) ++ crlf ++ rest =
        decimalDigits r.body.length ++ (32 :: ((decimalDigits type ++ [13]) ++ 10 :: rest)) := by
      simp [encodeType, crlf]
    rw [htext, scanLength_append (hdigits _), scanLength_cons, if_neg (by decide),
      if_pos (by decide), scanLength_append (hcr _), scanLength_cons, if_pos (by decide),
      if_neg (by decide)]
    simp only [encodeType, crlf, List.length_append, List.length_cons, List.length_nil,
      Option.map_some, Option.some.injEq, Prod.mk.injEq, and_true]
    omega

/-- The second line in the buffer becomes `lengthParsed`. -/
theorem set_lengthText {pre : List Byte} (r : Response) (rest : List Byte) {off : ℕ}
    (hoff : off = pre.length) :
    ((r.type.map fun _ => off + (decimalDigits r.body.length).length).elim
        ((pre ++ (lengthText r ++ rest)).set (off + (lengthText r).length - 1 - 1) 0)
        fun w => ((pre ++ (lengthText r ++ rest)).set (off + (lengthText r).length - 1 - 1) 0).set
          w 0) =
      pre ++ (lengthParsed r ++ rest) := by
  subst hoff
  have hcr : (pre ++ (lengthText r ++ rest)).set (pre.length + (lengthText r).length - 1 - 1) 0 =
      pre ++ (decimalDigits r.body.length ++ encodeType r.type) ++ 0 :: 10 :: rest := by
    have htext : pre ++ (lengthText r ++ rest) =
        (pre ++ (decimalDigits r.body.length ++ encodeType r.type)) ++ 13 :: 10 :: rest := by
      simp [lengthText, crlf]
    have hlen : pre.length + (lengthText r).length - 1 - 1 =
        (pre ++ (decimalDigits r.body.length ++ encodeType r.type)).length := by
      simp only [lengthText, crlf, List.length_append, List.length_cons, List.length_nil]
      omega
    rw [htext, hlen, set_append_length]
  rw [hcr]
  unfold lengthParsed
  cases r.type with
  | none => simp [encodeType, typeParsed]
  | some type =>
    have htext : pre ++ (decimalDigits r.body.length ++ encodeType (some type)) ++ 0 :: 10 :: rest =
        (pre ++ decimalDigits r.body.length) ++ 32 :: (decimalDigits type ++ 0 :: 10 :: rest) := by
      simp [encodeType]
    rw [Option.map_some, Option.elim_some, htext, ← List.length_append, set_append_length]
    simp [typeParsed]

/-- LENGTH, read from the parsed line. -/
theorem atoiAt_length {pre : List Byte} (r : Response) (rest : List Byte) {off : ℕ}
    (hoff : off = pre.length) (hmax : (r.body.length : ℤ) ≤ intMax) :
    atoiAt (pre ++ (lengthParsed r ++ rest)) off = some (r.body.length : ℤ) := by
  obtain ⟨b, tail, htail, hb⟩ : ∃ b tail, lengthParsed r ++ rest =
      decimalDigits r.body.length ++ b :: tail ∧ isDigit b = false := by
    unfold lengthParsed
    cases r.type with
    | none => exact ⟨0, 10 :: rest, by simp [typeParsed], rfl⟩
    | some type => exact ⟨0, decimalDigits type ++ [0, 10] ++ rest, by simp [typeParsed], rfl⟩
  have hdigits := digitsVal_decimalDigits r.body.length
  rw [htail, atoiAt_digits hoff (decimalDigits_ne_nil _) (isDigit_of_mem_decimalDigits _) hb
    (by rwa [hdigits]), hdigits]

/-- TYPE, read from the parsed line. -/
theorem atoiAt_type {pre : List Byte} (r : Response) (rest : List Byte) {off : ℕ}
    (hoff : off = pre.length) (htype : ∀ t ∈ r.type, t < 128) :
    ((r.type.map fun _ => off + (decimalDigits r.body.length).length).elim (some 0) fun w =>
        (atoiAt (pre ++ (lengthParsed r ++ rest)) (w + 1)).map Int8.ofInt) =
      some (Int8.ofInt (r.type.getD 0 : ℕ)) := by
  subst hoff
  unfold lengthParsed
  cases hr : r.type with
  | none => rfl
  | some type =>
    have hlt : type < 128 := htype type hr
    have hdigits := digitsVal_decimalDigits type
    have hmax : ((digitsVal (decimalDigits type) : ℕ) : ℤ) ≤ intMax := by
      rw [hdigits]
      unfold intMax
      omega
    have htext : pre ++ (decimalDigits r.body.length ++ typeParsed (some type) ++ [0, 10] ++ rest) =
        (pre ++ decimalDigits r.body.length ++ [0]) ++ (decimalDigits type ++ 0 :: 10 :: rest) := by
      simp [typeParsed]
    rw [Option.map_some, Option.elim_some, htext, atoiAt_digits (by simp [Nat.add_assoc])
      (decimalDigits_ne_nil _) (isDigit_of_mem_decimalDigits _) rfl hmax, hdigits]
    rfl

theorem lengthLine_full (hr : Sendable r) (h : Holds r m 1 l) (hm : headerLen r ≤ m) :
    ∃ l', l.lengthLine = some l' ∧ Holds r m 2 l' ∧ SameBlock l.client l'.client ∧
      l'.readSize = m - headerLen r ∧ l'.payloadReadSize = l.payloadReadSize := by
  obtain ⟨tail, htail⟩ := h.buffer
  have hlong : 2 ≤ (lengthText r).length := by
    simp only [lengthText, crlf, List.length_append, List.length_cons, List.length_nil]
    omega
  have hheader : statusLen r + (lengthText r).length = headerLen r := rfl
  have htake : (unparsed r 1).take (m - statusLen r) =
      lengthText r ++ (bodyText r).take (m - headerLen r) := by
    show (lengthText r ++ bodyText r).take (m - statusLen r) = _
    rw [List.take_append, List.take_of_length_le (by omega), Nat.sub_sub, hheader]
  have hscan : scanLength ((l.client.buffer.take l.totalSize).drop (statusLen r)) (statusLen r)
      none = some (statusLen r + (lengthText r).length - 1,
        r.type.map fun _ => statusLen r + (decimalDigits r.body.length).length) := by
    have hwindow := h.window
    simp only [parsedLen] at hwindow
    rw [hwindow, htake, scanLength_lengthText]
  have hbuffer : l.client.buffer =
      statusParsed r ++ (lengthText r ++ ((bodyText r).take (m - headerLen r) ++ tail)) := by
    rw [htail]
    show statusParsed r ++ ((unparsed r 1).take (m - statusLen r) ++ tail) = _
    rw [htake, List.append_assoc]
  have hbody : (r.body.length : ℤ) ≤ intMax := by
    have hlen := hr.length
    rw [length_encode] at hlen
    push_cast at hlen
    omega
  have hset := @set_lengthText (statusParsed r) r ((bodyText r).take (m - headerLen r) ++ tail)
    (statusLen r) (length_statusParsed r).symm
  have hlength := @atoiAt_length (statusParsed r) r ((bodyText r).take (m - headerLen r) ++ tail)
    (statusLen r) (length_statusParsed r).symm hbody
  have htype := @atoiAt_type (statusParsed r) r ((bodyText r).take (m - headerLen r) ++ tail)
    (statusLen r) (length_statusParsed r).symm hr.type
  have hsize : toSizeT (r.body.length : ℤ) = r.body.length := by
    unfold intMax at hbody
    unfold toSizeT
    omega
  rw [RecvLoop.lengthLine, if_pos h.lineNumber, h.lineStart (by decide)]
  simp only [Option.bind_eq_bind, Option.bind_some, parsedLen, hscan]
  rw [if_neg (by omega), hbuffer, hset, h.untyped (by decide), htype, hlength]
  have hstart : statusLen r + (lengthText r).length - 1 + 1 = headerLen r := by omega
  refine ⟨_, rfl, ?_, ⟨rfl, rfl, rfl, ?_⟩, ?_, rfl⟩
  · constructor
    case lineNumber => rfl
    case totalSize => exact h.totalSize
    case parsed_le => exact hm
    case buffer => exact ⟨tail, (List.append_assoc _ _ _).symm⟩
    case le_encode => exact h.le_encode
    case lineStart => exact fun h2 => absurd h2 (by decide)
    case untyped => exact fun h2 => absurd h2 (by decide)
    case status => exact fun _ => h.status (le_refl 1)
    case header =>
      intro _
      refine ⟨hsize, ?_, rfl⟩
      rw [← hstart]
  · rw [hbuffer]
    simp only [List.length_append, length_lengthParsed]
  · rw [← hstart, ← h.totalSize]

end Lines

end Memuncached.Client
