import Cezos.Mmu
import Cezos.Lib.Outcome

namespace Cezos

open Lib

abbrev Byte := BitVec 8

abbrev CInt := BitVec 32

/-- Where the characters come from and where they go: a byte of memory, `none` where nothing can be read, and the
function that is called for each character printed. -/
structure Host (σ : Type) where
  peek : σ → Word → Option Byte
  putch : CInt → Prog σ Unit

/-- The addresses of the strings of `printfmt.c`. -/
structure Rodata where
  errorD : Word
  percentS : Word
  nullString : Word
  unspecified : Word
  badEnv : Word
  invalid : Word
  noMem : Word
  noFreeEnv : Word
  segFault : Word

def eUnspecified : CInt := 1#32
def eBadEnv : CInt := 2#32
def eInval : CInt := 3#32
def eNoMem : CInt := 4#32
def eNoFreeEnv : CInt := 5#32
def eFault : CInt := 6#32
def maxError : CInt := 7#32

def Rodata.errorString (ro : Rodata) (err : CInt) : Word :=
  if err = eUnspecified then ro.unspecified
  else if err = eBadEnv then ro.badEnv
  else if err = eInval then ro.invalid
  else if err = eNoMem then ro.noMem
  else if err = eNoFreeEnv then ro.noFreeEnv
  else if err = eFault then ro.segFault
  else 0#32

/-! ### Machine arithmetic

A signed operation wraps around; it is a good one when it does not overflow. -/

section Arithmetic

variable {σ : Type} {w : ℕ}

def signedOp (r : BitVec w) (exact : Int) : Prog σ (BitVec w) := do
  Prog.check (fun _ => decide (r.toInt = exact))
  return r

def signedAdd (a b : BitVec w) : Prog σ (BitVec w) := signedOp (a + b) (a.toInt + b.toInt)
def signedSub (a b : BitVec w) : Prog σ (BitVec w) := signedOp (a - b) (a.toInt - b.toInt)
def signedMul (a b : BitVec w) : Prog σ (BitVec w) := signedOp (a * b) (a.toInt * b.toInt)
def signedNeg (a : BitVec w) : Prog σ (BitVec w) := signedOp (-a) (-a.toInt)

end Arithmetic

def chr (c : Char) : CInt := BitVec.ofNat 32 c.toNat

/-! ### Arguments

`va_list` is the rest of the stack words of the call; a `long long` takes two of them. -/

section Arguments

variable {σ : Type}

def vaArg : List Word → Prog σ (Word × List Word)
  | [] => Prog.fault
  | w :: ap => return (w, ap)

def vaArgLongLong : List Word → Prog σ (BitVec 64 × List Word)
  | lo :: hi :: ap => return (hi ++ lo, ap)
  | _ => Prog.fault

def getuint (ap : List Word) (lflag : CInt) : Prog σ (BitVec 64 × List Word) :=
  if 2 ≤ lflag.toInt then vaArgLongLong ap
  else do
    let (w, ap) ← vaArg ap
    return (w.setWidth 64, ap)

def getint (ap : List Word) (lflag : CInt) : Prog σ (BitVec 64 × List Word) :=
  if 2 ≤ lflag.toInt then vaArgLongLong ap
  else do
    let (w, ap) ← vaArg ap
    return (w.signExtend 64, ap)

end Arguments

inductive Token
  | minus | zero | digit | star | dot | alt | long
  | char | error | string | decimal | unsigned | octal | pointer | hex | percent
  | other
deriving DecidableEq

def tokenOf (ch : CInt) : Token :=
  if ch = chr '-' then .minus
  else if ch = chr '0' then .zero
  else if (chr '1').toInt ≤ ch.toInt ∧ ch.toInt ≤ (chr '9').toInt then .digit
  else if ch = chr '*' then .star
  else if ch = chr '.' then .dot
  else if ch = chr '#' then .alt
  else if ch = chr 'l' then .long
  else if ch = chr 'c' then .char
  else if ch = chr 'e' then .error
  else if ch = chr 's' then .string
  else if ch = chr 'd' then .decimal
  else if ch = chr 'u' then .unsigned
  else if ch = chr 'o' then .octal
  else if ch = chr 'p' then .pointer
  else if ch = chr 'x' then .hex
  else if ch = chr '%' then .percent
  else .other

structure Directive where
  fmt : Word
  ap : List Word
  padc : CInt
  width : CInt
  precision : CInt
  lflag : CInt
  altflag : Bool

def Directive.start (fmt : Word) (ap : List Word) : Directive := ⟨fmt, ap, chr ' ', -1#32, -1#32, 0#32, false⟩

/-- The label `process_precision`. -/
def Directive.processPrecision (d : Directive) : Directive :=
  if d.width.toInt < 0 then { d with width := d.precision, precision := -1#32 } else d

section Engine

variable {σ : Type} (h : Host σ) (ro : Rodata)

def charAt (p : Word) : Prog σ Byte := fun s =>
  match h.peek s p with
  | some c => .ret c s true
  | none => .fault s

def pad (ch width : CInt) : Prog σ Unit := Prog.forUp (fun _ => h.putch ch) 0 width.toInt.toNat

def padded (width : CInt) : CInt := if 0 < width.toInt then 0#32 else width

def digitChar (d : ℕ) : CInt := chr ("0123456789abcdef".toList.getD d '0')

/-- The first argument bounds the recursion; a number has at most 64 digits. -/
def printnum : ℕ → BitVec 64 → Word → CInt → CInt → Prog σ Unit
  | 0, _, _, _, _ => Prog.spin
  | n + 1, num, base, width, padc => do
    let width ← signedSub width 1#32
    (if base.setWidth 64 ≤ num then printnum n (num / base.setWidth 64) base width padc else pad h padc width)
    h.putch (digitChar (num % base.setWidth 64).toNat)

def digits : ℕ → Word → CInt → CInt → Prog σ (Word × CInt)
  | 0, _, _, _ => Prog.spin
  | n + 1, fmt, precision, ch => do
    let precision ← signedMul precision 10#32
    let precision ← signedAdd precision ch
    let precision ← signedSub precision (chr '0')
    let c ← charAt h fmt
    let ch : CInt := c.signExtend 32
    if ch.toInt < (chr '0').toInt ∨ (chr '9').toInt < ch.toInt then
      return (fmt, precision)
    else
      digits n (fmt + 1#32) precision ch

/-- `for (fmt--; fmt[-1] != '%'; fmt--)`, without the first step -/
def rewind : ℕ → Word → Prog σ Word
  | 0, _ => Prog.spin
  | n + 1, fmt => do
    let c ← charAt h (fmt - 1#32)
    if c.signExtend 32 = chr '%' then return fmt else rewind n (fmt - 1#32)

def countChars (p : Word) (precision : CInt) : Prog σ CInt :=
  Prog.whileSome (fun i : CInt =>
    if i.toInt < precision.toInt then do
      let c ← charAt h (p + i)
      if c = 0#8 then return none else return some (i + 1#32)
    else return none) (precision.toInt.toNat + 1) 0#32

def shown (altflag : Bool) (ch : CInt) : CInt :=
  if altflag ∧ (ch.toInt < (chr ' ').toInt ∨ (chr '~').toInt < ch.toInt) then chr '?' else ch

structure Scan where
  p : Word
  precision : CInt
  width : CInt

def scanString (altflag : Bool) (sc : Scan) : Prog σ (Option Scan) := do
  let c ← charAt h sc.p
  let ch : CInt := c.signExtend 32
  if ch = 0#32 then
    return none
  else if sc.precision.toInt < 0 then do
    h.putch (shown altflag ch)
    let width ← signedSub sc.width 1#32
    return some ⟨sc.p + 1#32, sc.precision, width⟩
  else do
    let precision ← signedSub sc.precision 1#32
    if 0 ≤ precision.toInt then
      h.putch (shown altflag ch)
      let width ← signedSub sc.width 1#32
      return some ⟨sc.p + 1#32, precision, width⟩
    else
      return none

/-- The characters are counted only where a string is padded on the left. -/
def padString (d : Directive) (p : Word) : Prog σ CInt :=
  if 0 < d.width.toInt ∧ d.padc ≠ chr '-' then do
    let len ← countChars h p d.precision
    pad h d.padc (d.width - len)
    return padded (d.width - len)
  else return d.width

def putString (fuel : ℕ) (d : Directive) (p : Word) : Prog σ Unit := do
  let width ← padString h d p
  let sc ← Prog.whileSome (scanString h d.altflag) fuel ⟨p, d.precision, width⟩
  pad h (chr ' ') sc.width

def putNumber (d : Directive) (num : BitVec 64) (base : Word) : Prog σ Unit :=
  printnum h 64 num base d.width d.padc

def putDecimal (d : Directive) (num : BitVec 64) : Prog σ Unit :=
  if num.toInt < 0 then do
    h.putch (chr '-')
    let num ← signedNeg num
    putNumber h d num 10#32
  else putNumber h d num 10#32

/-- `error_string` has no entry below 0, and the address of an entry wraps around. -/
def putError (printfmt : Word → List Word → Prog σ Unit) (err : CInt) : Prog σ Unit :=
  if maxError.toInt ≤ err.toInt then printfmt ro.errorD [err]
  else do
    Prog.check (fun _ => decide (0 ≤ err.toInt))
    let p := ro.errorString (4#32 * err / 4#32)
    if p = 0#32 then printfmt ro.errorD [err] else printfmt ro.percentS [p]

/-- The conversions; `printfmt` is the call of the formatter for an error message. -/
def convert (printfmt : Word → List Word → Prog σ Unit) (fuel : ℕ) (token : Token) (ch : CInt) (d : Directive) :
    Prog σ (Word × List Word) :=
  match token with
  | .char => do
    let (w, ap) ← vaArg d.ap
    h.putch w
    return (d.fmt, ap)
  | .error => do
    let (err, ap) ← vaArg d.ap
    let err ← (if err.toInt < 0 then signedNeg err else pure err)
    putError ro printfmt err
    return (d.fmt, ap)
  | .string => do
    let (p, ap) ← vaArg d.ap
    putString h fuel d (if p = 0#32 then ro.nullString else p)
    return (d.fmt, ap)
  | .decimal => do
    let (num, ap) ← getint d.ap d.lflag
    putDecimal h d num
    return (d.fmt, ap)
  | .unsigned => do
    let (num, ap) ← getuint d.ap d.lflag
    putNumber h d num 10#32
    return (d.fmt, ap)
  | .octal => do
    h.putch (chr 'X')
    h.putch (chr 'X')
    h.putch (chr 'X')
    return (d.fmt, d.ap)
  | .pointer => do
    h.putch (chr '0')
    h.putch (chr 'x')
    let (w, ap) ← vaArg d.ap
    putNumber h d (w.setWidth 64) 16#32
    return (d.fmt, ap)
  | .hex => do
    let (num, ap) ← getuint d.ap d.lflag
    putNumber h d num 16#32
    return (d.fmt, ap)
  | .percent => do
    h.putch ch
    return (d.fmt, d.ap)
  | _ => do
    h.putch (chr '%')
    let fmt ← rewind h fuel (d.fmt - 1#32)
    return (fmt, d.ap)

/-- From the label `reswitch` to the end of the directive: the rest of the format and of the arguments. -/
def reswitch (printfmt : Word → List Word → Prog σ Unit) (fuel : ℕ) : ℕ → Directive → Prog σ (Word × List Word)
  | 0, _ => Prog.spin
  | n + 1, d => do
    let c ← charAt h d.fmt
    let ch : CInt := c.setWidth 32
    let d := { d with fmt := d.fmt + 1#32 }
    match tokenOf ch with
    | .minus => reswitch printfmt fuel n { d with padc := chr '-' }
    | .zero => reswitch printfmt fuel n { d with padc := chr '0' }
    | .digit => do
      let (fmt, precision) ← digits h fuel d.fmt 0#32 ch
      reswitch printfmt fuel n { d with fmt := fmt, precision := precision }.processPrecision
    | .star => do
      let (precision, ap) ← vaArg d.ap
      reswitch printfmt fuel n { d with ap := ap, precision := precision }.processPrecision
    | .dot => reswitch printfmt fuel n { d with width := if d.width.toInt < 0 then 0#32 else d.width }
    | .alt => reswitch printfmt fuel n { d with altflag := true }
    | .long => do
      let lflag ← signedAdd d.lflag 1#32
      reswitch printfmt fuel n { d with lflag := lflag }
    | token => convert h ro printfmt fuel token ch d

/-- `vprintfmt`; a run that needs more than `fuel` turns of one loop counts as running forever. -/
def vprintfmt : ℕ → Word → List Word → Prog σ Unit
  | 0, _, _ => Prog.spin
  | fuel + 1, fmt, ap => do
    let c ← charAt h fmt
    let ch : CInt := c.setWidth 32
    if ch = chr '%' then
      let (fmt, ap) ← reswitch h ro (fun fmt ap => vprintfmt fuel fmt ap) fuel fuel (.start (fmt + 1#32) ap)
      vprintfmt fuel fmt ap
    else if ch = 0#32 then
      return ()
    else
      h.putch ch
      vprintfmt fuel (fmt + 1#32) ap

end Engine

end Cezos
