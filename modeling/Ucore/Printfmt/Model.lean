import Mathlib.Data.BitVec
import Mathlib.Tactic.Ring

/-!
# Formatted output (`lab8/libs/printfmt.c`)

A function yields the sequence of what it passes to `putch`.  The format is in a memory in which only some
addresses can be read; a read of another address or outside of `error_string`, a recursion that is too deep and a
loop that is not done within its bound are all `none`.

Where an operation on values of type `int` does not fit, C leaves it open what the result is; `overflow` gives it.
-/

namespace Ucore.Printfmt

def MAXERROR : ℤ := 24

def chr (c : Char) : UInt8 := UInt8.ofNat c.toNat

/-- The characters of a string literal. -/
def chars (cs : List Char) : List UInt8 := cs.map chr

/-- The results of overflows. -/
structure Env where
  overflow : ℤ → ℤ

/-- A value of type `int`. -/
def int32 (env : Env) (x : ℤ) : ℤ := if -2 ^ 31 ≤ x ∧ x < 2 ^ 31 then x else env.overflow x

/-- A value of type `long long`. -/
def int64 (env : Env) (x : ℤ) : ℤ := if -2 ^ 63 ≤ x ∧ x < 2 ^ 63 then x else env.overflow x

/-! ### `printnum` -/

/-- `for (; width > 0; width --) putch(padc)`. -/
def padLoop (padc width : ℤ) : List ℤ := if 0 < width then padc :: padLoop padc (width - 1) else []
termination_by width.toNat
decreasing_by omega

/-- `"0123456789abcdef"[mod]`. -/
def digitChar (mod : ℕ) : ℤ :=
  (((chars ['0', '1', '2', '3', '4', '5', '6', '7', '8', '9', 'a', 'b', 'c', 'd', 'e', 'f']).getD mod
    0).toNat : ℤ)

/-- `printnum`, with at most `depth` nested calls. -/
def printnum (env : Env) : ℕ → ℕ → ℕ → ℤ → ℤ → Option (List ℤ)
  | 0, _, _, _, _ => none
  | depth + 1, num, base, width, padc =>
    let result := num / base
    let mod := num % base
    (if num ≥ base then printnum env depth result base (int32 env (width - 1)) padc
      else some (padLoop padc (int32 env (width - 1)))).map (· ++ [digitChar mod])

/-! ### Arguments -/

/-- An argument, and the string that it points to if it is a pointer other than `NULL`. -/
structure Arg where
  word : BitVec 64
  str : List UInt8

/-- `va_arg(ap, int)`. -/
def Arg.int (a : Arg) : ℤ := (a.word.setWidth 32).toInt

/-- `getint`. -/
def getint (a : Arg) (lflag : ℤ) : BitVec 64 :=
  if lflag ≥ 2 then a.word
  else if lflag ≠ 0 then a.word
  else (a.word.setWidth 32).signExtend 64

/-- `getuint`. -/
def getuint (a : Arg) (lflag : ℤ) : BitVec 64 :=
  if lflag ≥ 2 then a.word
  else if lflag ≠ 0 then a.word
  else (a.word.setWidth 32).setWidth 64

/-! ### Conversions -/

/-- The variables of `vprintfmt` that the characters between `%` and the conversion set. -/
structure Flags where
  padc : UInt8
  width : ℤ
  precision : ℤ
  lflag : ℤ
  altflag : Bool

/-- The flags behind a `%`. -/
def Flags.start : Flags := ⟨chr ' ', -1, -1, 0, false⟩

/-- `process_precision`. -/
def Flags.processPrecision (f : Flags) (precision : ℤ) : Flags :=
  if f.width < 0 then { f with width := precision, precision := -1 } else { f with precision := precision }

/-- The flags that are one character, and the argument of `*`. -/
def flagChar (env : Env) (arg : ℕ → Arg) (f : Flags) (ap : ℕ) (ch : UInt8) : Option (Flags × ℕ) :=
  if ch = chr '-' then some ({ f with padc := chr '-' }, ap)
  else if ch = chr '0' then some ({ f with padc := chr '0' }, ap)
  else if ch = chr '*' then some (f.processPrecision (arg ap).int, ap + 1)
  else if ch = chr '.' then some (if f.width < 0 then { f with width := 0 } else f, ap)
  else if ch = chr '#' then some ({ f with altflag := true }, ap)
  else if ch = chr 'l' then some ({ f with lflag := int32 env (f.lflag + 1) }, ap)
  else none

/-- The digits, and those of them that start a number in a format. -/
def isDigit (ch : UInt8) : Bool := decide (chr '0' ≤ ch) && decide (ch ≤ chr '9')

def startsNumber (ch : UInt8) : Bool := decide (chr '1' ≤ ch) && decide (ch ≤ chr '9')

/-- `strnlen(p, precision)`, where the precision is converted to `size_t`. -/
def strnlen (p : List UInt8) (precision : ℤ) : ℕ :=
  min (p.takeWhile (· ≠ 0)).length (precision % 2 ^ 64).toNat

/-- The loop of `%s` over the characters, and the width after it. -/
def putString (env : Env) (altflag : Bool) : List UInt8 → ℤ → ℤ → List ℤ × ℤ
  | [], _, width => ([], width)
  | ch :: p, precision, width =>
    if ch ≠ 0 ∧ (precision < 0 ∨ precision - 1 ≥ 0) then
      let next := putString env altflag p (if precision < 0 then precision else precision - 1)
        (int32 env (width - 1))
      ((if altflag ∧ (ch < chr ' ' ∨ ch > chr '~') then ((chr '?').toNat : ℤ) else (ch.toNat : ℤ)) ::
        next.1, next.2)
    else ([], width)

/-- The conversion `%s`. -/
def putStr (env : Env) (f : Flags) (p : List UInt8) : List ℤ :=
  let pads := f.width > 0 ∧ f.padc ≠ chr '-'
  let width := (BitVec.ofInt 32 (f.width - strnlen p f.precision)).toInt
  let before := if pads then padLoop f.padc.toNat width else []
  let string := putString env f.altflag p f.precision (if pads then min width 0 else f.width)
  before ++ string.1 ++ padLoop (chr ' ').toNat string.2

/-- `number`: the output so far, and the number. -/
def putNumber (env : Env) (f : Flags) (before : List ℤ) (num : BitVec 64) (base : ℕ) : Option (List ℤ) :=
  (printnum env 64 num.toNat base f.width f.padc.toNat).map (before ++ ·)

/-- The conversion `%d`. -/
def putInt (env : Env) (f : Flags) (num : BitVec 64) : Option (List ℤ) :=
  if num.toInt < 0 then
    putNumber env f [((chr '-').toNat : ℤ)] (BitVec.ofInt 64 (int64 env (-num.toInt))) 10
  else putNumber env f [] num 10

/-- The conversions but `%e`. -/
def CONVERSIONS : List UInt8 := chars ['c', 's', 'd', 'u', 'o', 'p', 'x', '%']

/-- The output of a conversion but `%e`, and the argument after it. -/
def convert (env : Env) (arg : ℕ → Arg) (f : Flags) (ap : ℕ) (ch : UInt8) : Option (List ℤ × ℕ) :=
  if ch = chr 'c' then some ([(arg ap).int], ap + 1)
  else if ch = chr 's' then
    let p := if (arg ap).word = 0 then chars ['(', 'n', 'u', 'l', 'l', ')'] else (arg ap).str
    some (putStr env f p, ap + 1)
  else if ch = chr 'd' then (putInt env f (getint (arg ap) f.lflag)).map (·, ap + 1)
  else if ch = chr 'u' then (putNumber env f [] (getuint (arg ap) f.lflag) 10).map (·, ap + 1)
  else if ch = chr 'o' then (putNumber env f [] (getuint (arg ap) f.lflag) 8).map (·, ap + 1)
  else if ch = chr 'p' then
    (putNumber env f [((chr '0').toNat : ℤ), ((chr 'x').toNat : ℤ)] (arg ap).word 16).map (·, ap + 1)
  else if ch = chr 'x' then (putNumber env f [] (getuint (arg ap) f.lflag) 16).map (·, ap + 1)
  else if ch = chr '%' then some ([(ch.toNat : ℤ)], ap)
  else none

/-- `error_string`. -/
def ERROR_STRING : List (Option (List UInt8)) :=
  [none,
    some (chars "unspecified error".toList),
    some (chars "bad process".toList),
    some (chars "invalid parameter".toList),
    some (chars "out of memory".toList),
    some (chars "out of processes".toList),
    some (chars "segmentation fault".toList),
    none,
    some (chars "invalid elf file".toList),
    some (chars "process is killed".toList),
    some (chars "panic failure".toList),
    none,
    none,
    some (chars "no such device".toList),
    some (chars "device not available".toList),
    some (chars "device/file is busy".toList),
    some (chars "no such file or directory".toList),
    some (chars "is a directory".toList),
    some (chars "not a directory".toList),
    some (chars "cross device link".toList),
    some (chars "unimplemented feature".toList),
    some (chars "illegal seek".toList),
    some (chars "too many files are open".toList),
    some (chars "file or directory already exists".toList),
    some (chars "directory is not empty".toList)]

/-- `error_string[err]`; outside of the table nothing can be read. -/
def errorString (err : ℤ) : Option (Option (List UInt8)) :=
  if err < 0 then none else ERROR_STRING[err.toNat]?

/-- The `err` of `%e`. -/
def errorIndex (env : Env) (a : Arg) : ℤ := if a.int < 0 then int32 env (-a.int) else a.int

/-- The format and the argument with which `%e` calls `printfmt`. -/
def errorFormat (env : Env) (a : Arg) : Option (List UInt8 × Arg) := do
  let err := errorIndex env a
  match ← (if err > MAXERROR then some none else errorString err) with
  | none => return (chars ['e', 'r', 'r', 'o', 'r', ' ', '%', 'd'], ⟨BitVec.ofInt 64 err, []⟩)
  -- a pointer to the string, which is not `NULL`
  | some p => return (chars ['%', 's'], ⟨1, p⟩)

/-! ### `vprintfmt` -/

/-- The memory of the format. -/
abbrev Format := ℕ → Option UInt8

/-- A format that is a string literal. -/
def literal (s : List UInt8) : Format := fun i => if i ≤ s.length then some (s.getD i 0) else none

/-- The loop of the width field; `fmt` points behind the digit `ch`. -/
def scanDigits (env : Env) (m : Format) : ℕ → ℕ → UInt8 → ℤ → Option (ℤ × ℕ)
  | 0, _, _, _ => none
  | bound + 1, fmt, ch, precision => do
    let precision := int32 env (int32 env (int32 env (precision * 10) + ch.toNat) - (chr '0').toNat)
    let ch ← m fmt
    if isDigit ch then scanDigits env m bound (fmt + 1) ch precision else some (precision, fmt)

/-- `for (; fmt[-1] != '%'; fmt --)`. -/
def stepBack (m : Format) : ℕ → ℕ → Option ℕ
  | 0, _ => none
  | bound + 1, fmt => do
    let ch ← m (fmt - 1)
    if ch ≠ chr '%' then stepBack m bound (fmt - 1) else some fmt

/-- Whether the loop is at ordinary text or at `reswitch`. -/
inductive Mode
  | text
  | escape (f : Flags)

/-- The loops of `vprintfmt` from the character at `fmt` on; `ap` is the number of the next argument. -/
def vprintfmtLoop (env : Env) :
    ℕ → Format → (ℕ → Arg) → Mode → ℕ → ℕ → Option (List ℤ)
  | 0, _, _, _, _, _ => none
  | turns + 1, m, arg, .text, fmt, ap => do
    let ch ← m fmt
    if ch = chr '%' then vprintfmtLoop env turns m arg (.escape Flags.start) (fmt + 1) ap
    else if ch = 0 then some []
    else (vprintfmtLoop env turns m arg .text (fmt + 1) ap).map ((ch.toNat : ℤ) :: ·)
  | turns + 1, m, arg, .escape f, fmt, ap => do
    let ch ← m fmt
    let fmt := fmt + 1
    match flagChar env arg f ap ch with
    | some (f, ap) => vprintfmtLoop env turns m arg (.escape f) fmt ap
    | none =>
      if startsNumber ch then do
        let (precision, fmt) ← scanDigits env m turns fmt ch 0
        vprintfmtLoop env turns m arg (.escape (f.processPrecision precision)) fmt ap
      else if ch = chr 'e' then do
        let (format, a) ← errorFormat env (arg ap)
        let out ← vprintfmtLoop env turns (literal format) (fun _ => a) .text 0 0
        (vprintfmtLoop env turns m arg .text fmt (ap + 1)).map (out ++ ·)
      else if CONVERSIONS.contains ch then do
        let (out, ap) ← convert env arg f ap ch
        (vprintfmtLoop env turns m arg .text fmt ap).map (out ++ ·)
      else do
        -- the sequence is not a conversion
        let fmt ← stepBack m turns (fmt - 1)
        (vprintfmtLoop env turns m arg .text fmt ap).map (((chr '%').toNat : ℤ) :: ·)

/-- `vprintfmt` of the format at `fmt`, with at most `turns` turns. -/
def vprintfmt (env : Env) (turns : ℕ) (m : Format) (fmt : ℕ) (arg : ℕ → Arg) : Option (List ℤ) :=
  vprintfmtLoop env turns m arg .text fmt 0

end Ucore.Printfmt
