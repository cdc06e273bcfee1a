import Memuncached.Client.SetGet

/-!
# The requests INC and DEC of the library

`__memuncached_inc` and `__memuncached_dec` take their optional arguments from a
`va_list` that the macros of `libmemuncached.h` end with two default values. A
variadic argument carries its type here, and reading it as another one is an
error.

* `requestsAgree_iff`: the two print the same line, up to the word, exactly for
  the macros that take `double`s. `__memuncached_inc` assigns to `type` where
  `__memuncached_dec` compares it, so it reads `double`s whatever it is called
  with.
-/

namespace Memuncached.Client

/-! ## Variadic arguments -/

/-- A variadic argument. -/
inductive VarArg (R : Type) where
  | int (v : Int32)
  | double (v : R)
  deriving DecidableEq, Repr

section Requests

variable {R : Type}

/-- `va_arg(opt_args, int)`, with the arguments behind it. -/
def vaArgInt : List (VarArg R) → Option (Int32 × List (VarArg R))
  | .int v :: optArgs => some (v, optArgs)
  | _ => none

/-- `va_arg(opt_args, double)`, with the arguments behind it. -/
def vaArgDouble : List (VarArg R) → Option (R × List (VarArg R))
  | .double v :: optArgs => some (v, optArgs)
  | _ => none

/-- `LIBMEMUNCACHED_DEFAULT_INT`. -/
def defaultInt : Int32 := -2147483648

/-- A command, a key and arguments on one line. -/
def argsLine (cmd key : List Byte) (args : List (List Byte)) : List Byte :=
  cmd ++ 32 :: key ++ args.flatMap (fun arg => 32 :: arg) ++ crlf

/-- One branch of `__memuncached_inc` and `__memuncached_dec`: the line it
    prints, `none` where an argument has another type than it is read with. -/
def branchLine {α : Type} [DecidableEq α] (vaArg : List (VarArg R) → Option (α × List (VarArg R)))
    (default : α) (fmt : α → List Byte) (cmd key : List Byte) (optArgs : List (VarArg R)) :
    Option (List Byte) := do
  let (offset, optArgs) ← vaArg optArgs
  let (initial, _) ← vaArg optArgs
  if offset = default then return cmd ++ 32 :: key ++ crlf
  else if initial = default then return cmd ++ 32 :: key ++ 32 :: fmt offset ++ crlf
  else return cmd ++ 32 :: key ++ 32 :: fmt offset ++ 32 :: fmt initial ++ crlf

/-- What the macros pass for arguments of their type is printed. -/
theorem branchLine_args {α : Type} [DecidableEq α]
    {vaArg : List (VarArg R) → Option (α × List (VarArg R))} {mk : α → VarArg R}
    (hmk : ∀ v optArgs, vaArg (mk v :: optArgs) = some (v, optArgs)) {default : α}
    (fmt : α → List Byte) (cmd key : List Byte) {args : List α} (hlen : args.length ≤ 2)
    (hdefault : default ∉ args) :
    branchLine vaArg default fmt cmd key (args.map mk ++ [mk default, mk default]) =
      some (argsLine cmd key (args.map fmt)) := by
  unfold branchLine argsLine
  match args, hlen with
  | [], _ => simp [hmk]
  | [offset], _ =>
    have hoffset : offset ≠ default := fun h => hdefault (by simp [h])
    simp [hmk, hoffset]
  | [offset, initial], _ =>
    have hoffset : offset ≠ default := fun h => hdefault (by simp [h])
    have hinitial : initial ≠ default := fun h => hdefault (by simp [h])
    simp [hmk, hoffset, hinitial]

variable [CacheValueReal R] [DecidableEq R]

/-! ## The library -/

/-- The branch for `int`s (libmemuncached.c, lines 267-276 and 322-331). -/
def intLine (cmd key : List Byte) (optArgs : List (VarArg R)) : Option (List Byte) :=
  branchLine vaArgInt defaultInt (fun v => fmtD v.toInt) cmd key optArgs

/-- The branch for `double`s (libmemuncached.c, lines 278-287 and 333-342). The
    parameter is `LIBMEMUNCACHED_DEFAULT_DOUBLE`, which `==` finds equal to
    itself and to nothing else. -/
def doubleLine (defaultDouble : R) (cmd key : List Byte) (optArgs : List (VarArg R)) :
    Option (List Byte) :=
  branchLine vaArgDouble defaultDouble CacheValueReal.fmtLf cmd key optArgs

/-- `__memuncached_inc` up to the request (libmemuncached.c, lines 261-293): the
    line it prints, if any; `none` when an argument is read with the wrong type. -/
def incRequest (defaultDouble : R) (key : List Byte) (_type : Int8) (optArgs : List (VarArg R)) :
    Option (Option (List Byte)) :=
  -- `if (type = 0)`
  let type : Int8 := 0
  if type ≠ 0 then (intLine (ascii "INC") key optArgs).map some
  else
    -- `else if (type = 1)`
    let type : Int8 := 1
    if type ≠ 0 then (doubleLine defaultDouble (ascii "INC") key optArgs).map some
    else some none

/-- `__memuncached_dec` up to the request (libmemuncached.c, lines 316-348). -/
def decRequest (defaultDouble : R) (key : List Byte) (type : Int8) (optArgs : List (VarArg R)) :
    Option (Option (List Byte)) :=
  if type = 0 then (intLine (ascii "DEC") key optArgs).map some
  else if type = 1 then (doubleLine defaultDouble (ascii "DEC") key optArgs).map some
  else some none

/-- `memuncached_inc_d` and `memuncached_inc_f` (libmemuncached.h, lines 96-97). -/
def memuncachedIncD (defaultDouble : R) (key : List Byte) (args : List (VarArg R)) :
    Option (Option (List Byte)) :=
  incRequest defaultDouble key 0 (args ++ [.int defaultInt, .int defaultInt])

def memuncachedIncF (defaultDouble : R) (key : List Byte) (args : List (VarArg R)) :
    Option (Option (List Byte)) :=
  incRequest defaultDouble key 1 (args ++ [.double defaultDouble, .double defaultDouble])

/-- `memuncached_dec_d` and `memuncached_dec_f` (libmemuncached.h, lines
    107-108). -/
def memuncachedDecD (defaultDouble : R) (key : List Byte) (args : List (VarArg R)) :
    Option (Option (List Byte)) :=
  decRequest defaultDouble key 0 (args ++ [.int defaultInt, .int defaultInt])

def memuncachedDecF (defaultDouble : R) (key : List Byte) (args : List (VarArg R)) :
    Option (Option (List Byte)) :=
  decRequest defaultDouble key 1 (args ++ [.double defaultDouble, .double defaultDouble])

/-! ## Specification -/

/-- The optional arguments of a call through a `_d` or an `_f` macro. -/
inductive OptArgs (R : Type) where
  | decimal (args : List Int32)
  | real (args : List R)

/-- At most OFFSET and INITIAL, and none of them the default value. -/
def OptArgs.Valid (defaultDouble : R) : OptArgs R → Prop
  | .decimal args => args.length ≤ 2 ∧ defaultInt ∉ args
  | .real args => args.length ≤ 2 ∧ defaultDouble ∉ args

/-- The arguments in the format of their type. -/
def OptArgs.texts : OptArgs R → List (List Byte)
  | .decimal args => args.map fun v => fmtD v.toInt
  | .real args => args.map CacheValueReal.fmtLf

/-- The call through `memuncached_inc_d` or `memuncached_inc_f`. -/
def OptArgs.inc (defaultDouble : R) (key : List Byte) : OptArgs R → Option (Option (List Byte))
  | .decimal args => memuncachedIncD defaultDouble key (args.map .int)
  | .real args => memuncachedIncF defaultDouble key (args.map .double)

/-- The call through `memuncached_dec_d` or `memuncached_dec_f`. -/
def OptArgs.dec (defaultDouble : R) (key : List Byte) : OptArgs R → Option (Option (List Byte))
  | .decimal args => memuncachedDecD defaultDouble key (args.map .int)
  | .real args => memuncachedDecF defaultDouble key (args.map .double)

/-- Both calls read their arguments with the right types and print the key and
    the arguments, behind INC and DEC. -/
def RequestsAgree (defaultDouble : R) (key : List Byte) (args : OptArgs R) : Prop :=
  args.inc defaultDouble key = some (some (argsLine (ascii "INC") key args.texts)) ∧
    args.dec defaultDouble key = some (some (argsLine (ascii "DEC") key args.texts))

/-! ## When the requests agree -/

omit [CacheValueReal R] [DecidableEq R] in
theorem intLine_args (cmd key : List Byte) {args : List Int32} (hlen : args.length ≤ 2)
    (hdefault : defaultInt ∉ args) :
    intLine (R := R) cmd key (args.map .int ++ [.int defaultInt, .int defaultInt]) =
      some (argsLine cmd key (args.map fun v => fmtD v.toInt)) :=
  branchLine_args (fun _ _ => rfl) _ cmd key hlen hdefault

theorem doubleLine_args (defaultDouble : R) (cmd key : List Byte) {args : List R}
    (hlen : args.length ≤ 2) (hdefault : defaultDouble ∉ args) :
    doubleLine defaultDouble cmd key
        (args.map .double ++ [.double defaultDouble, .double defaultDouble]) =
      some (argsLine cmd key (args.map CacheValueReal.fmtLf)) :=
  branchLine_args (fun _ _ => rfl) _ cmd key hlen hdefault

/-- The first argument behind `memuncached_inc_d` is an `int`, be it a default
    value. -/
theorem doubleLine_int (defaultDouble : R) (cmd key : List Byte) (args : List Int32) :
    doubleLine defaultDouble cmd key (args.map .int ++ [.int defaultInt, .int defaultInt]) =
      none := by
  unfold doubleLine branchLine
  cases args <;> rfl

/-- The type `__memuncached_inc` is called with makes no difference. -/
theorem incRequest_eq (defaultDouble : R) (key : List Byte) (type : Int8)
    (optArgs : List (VarArg R)) :
    incRequest defaultDouble key type optArgs =
      (doubleLine defaultDouble (ascii "INC") key optArgs).map some := rfl

/-- DEC prints what it is given. -/
theorem dec_eq {defaultDouble : R} (key : List Byte) {args : OptArgs R}
    (h : args.Valid defaultDouble) :
    args.dec defaultDouble key = some (some (argsLine (ascii "DEC") key args.texts)) := by
  cases args with
  | decimal args =>
    show (intLine (ascii "DEC") key _).map some = _
    rw [intLine_args _ key h.1 h.2]
    rfl
  | real args =>
    show (doubleLine defaultDouble (ascii "DEC") key _).map some = _
    rw [doubleLine_args defaultDouble _ key h.1 h.2]
    rfl

theorem requestsAgree_iff {defaultDouble : R} (key : List Byte) {args : OptArgs R}
    (h : args.Valid defaultDouble) :
    RequestsAgree defaultDouble key args ↔ ∃ reals, args = .real reals := by
  constructor
  · rintro ⟨hinc, -⟩
    cases args with
    | real reals => exact ⟨reals, rfl⟩
    | decimal ints =>
      have hnone : OptArgs.inc defaultDouble key (.decimal ints) = none := by
        show incRequest defaultDouble key 0 _ = none
        rw [incRequest_eq, doubleLine_int]
        rfl
      rw [hnone] at hinc
      exact absurd hinc (by simp)
  · rintro ⟨reals, rfl⟩
    refine ⟨?_, dec_eq key h⟩
    show incRequest defaultDouble key 1 _ = _
    rw [incRequest_eq, doubleLine_args defaultDouble _ key h.1 h.2]
    rfl

end Requests

/-- `DBL_MIN`. -/
def dblMin : ℚ := 1 / 2 ^ 1022

/-- `memuncached_inc_f(client, "x", &result, 0.5)`. -/
theorem requestsAgree_half : RequestsAgree dblMin (ascii "x") (.real [1 / 2]) :=
  (requestsAgree_iff (ascii "x")
    (show OptArgs.Valid dblMin (.real [1 / 2]) from ⟨by decide, by decide +kernel⟩)).mpr ⟨_, rfl⟩

/-- `memuncached_inc_d(client, "x", &result, 10)`. -/
theorem not_requestsAgree_ten :
    ¬ ∀ (key : List Byte) (args : OptArgs ℚ), args.Valid dblMin →
      RequestsAgree dblMin key args := by
  intro h
  have hinc := (h (ascii "x") (.decimal [10]) ⟨by decide, by decide⟩).1
  exact absurd hinc (by decide)

end Memuncached.Client
