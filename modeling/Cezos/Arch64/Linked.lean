import Cezos.Arch64.Division

namespace Cezos.Arch64

open Lib

variable {σ : Type} (h : Host σ) (ro : Rodata)

/-! ### The formatter as it is linked

A division of 64-bit words is a call of the routines above on this processor. -/

def printnum : ℕ → BitVec 64 → Word → CInt → CInt → Prog σ Unit
  | 0, _, _, _, _ => Prog.spin
  | n + 1, num, base, width, padc => do
    let width ← signedSub width 1#32
    (if base.setWidth 64 ≤ num then do
      let q ← udivdi3 num (base.setWidth 64)
      printnum n q base width padc
    else pad h padc width)
    let r ← umoddi3 num (base.setWidth 64)
    h.putch (digitChar r.toNat)

def putNumber (d : Directive) (num : BitVec 64) (base : Word) : Prog σ Unit := printnum h 64 num base d.width d.padc

def putDecimal (d : Directive) (num : BitVec 64) : Prog σ Unit :=
  if num.toInt < 0 then do
    h.putch (chr '-')
    let num ← signedNeg num
    putNumber h d num 10#32
  else putNumber h d num 10#32

def convert (printfmt : Word → List Word → Prog σ Unit) (fuel : ℕ) (token : Token) (ch : CInt) (d : Directive) :
    Prog σ (Word × List Word) :=
  match token with
  | .decimal => do
    let (num, ap) ← getint d.ap d.lflag
    putDecimal h d num
    return (d.fmt, ap)
  | .unsigned => do
    let (num, ap) ← getuint d.ap d.lflag
    putNumber h d num 10#32
    return (d.fmt, ap)
  | .pointer => do
    h.putch (chr '0')
    h.putch (chr 'x')
    let (w, ap) ← vaArg d.ap
    putNumber h d (w.setWidth 64) 16#32
    return (d.fmt, ap)
  | .hex => do
    let (num, ap) ← getuint d.ap d.lflag
    putNumber h d num 16#32
    return (d.fmt, ap)
  | token => Cezos.convert h ro printfmt fuel token ch d

def vprintfmt (fuel : ℕ) (fmt : Word) (ap : List Word) : Prog σ Unit := vprintfmtOn h (convert h ro) fuel fmt ap

variable {h ro} {n fuel : ℕ} {num : BitVec 64} {base fmt : Word} {width padc ch : CInt} {d : Directive}
    {ap : List Word}

theorem printnum_linked (hb : base ≠ 0#32) :
    printnum h n num base width padc = Cezos.printnum h n num base width padc := by
  have hwide : base.setWidth 64 ≠ 0#64 := by
    intro hz
    apply hb
    have hnat := congrArg BitVec.toNat hz
    rw [BitVec.toNat_setWidth, Nat.mod_eq_of_lt (Nat.lt_trans base.isLt (by decide))] at hnat
    exact BitVec.eq_of_toNat_eq hnat
  induction n generalizing num width with
  | zero => rfl
  | succ n ih =>
    rw [printnum, Cezos.printnum]
    apply congrArg (signedSub width 1#32 >>= ·)
    funext width
    simp only [udivdi3_eq hwide, umoddi3_eq hwide, Prog.pure_bind, ih]

theorem putNumber_linked (hb : base ≠ 0#32) : putNumber h d num base = Cezos.putNumber h d num base :=
    printnum_linked hb

theorem putDecimal_linked : putDecimal h d num = Cezos.putDecimal h d num := by
  unfold putDecimal Cezos.putDecimal
  simp only [putNumber_linked (show 10#32 ≠ 0#32 by decide)]

theorem convert_linked {printfmt : Word → List Word → Prog σ Unit} {token : Token} :
    convert h ro printfmt fuel token ch d = Cezos.convert h ro printfmt fuel token ch d := by
  cases token with
  | decimal => simp only [convert, Cezos.convert, putDecimal_linked]
  | unsigned => simp only [convert, Cezos.convert, putNumber_linked (show 10#32 ≠ 0#32 by decide)]
  | pointer => simp only [convert, Cezos.convert, putNumber_linked (show 16#32 ≠ 0#32 by decide)]
  | hex => simp only [convert, Cezos.convert, putNumber_linked (show 16#32 ≠ 0#32 by decide)]
  | minus | zero | digit | star | dot | alt | long | char | error | string | octal | percent | other => rfl

theorem vprintfmt_linked : vprintfmt h ro fuel fmt ap = Cezos.vprintfmt h ro fuel fmt ap := by
  rw [← vprintfmtOn_convert, vprintfmt]
  congr 1
  funext printfmt fuel token ch d
  exact convert_linked

end Cezos.Arch64
