import Cezos.Stdio.Printfmt
import Cezos.Lib.Simulation

namespace Cezos

open Lib

variable {σ τ α : Type} {R : σ → τ → Prop} {h : Host σ} {h' : Host τ} {w : ℕ}

structure Host.Refines (R : σ → τ → Prop) (h : Host σ) (h' : Host τ) : Prop where
  peek : ∀ {s t p c}, R s t → h.peek s p = some c → h'.peek t p = some c
  putch : ∀ ch, Forward R (h.putch ch) (h'.putch ch)

theorem toInt_ofNat_small {k : ℕ} (h : k < 2 ^ 31) : (BitVec.ofNat 32 k).toInt = k := by
  rw [BitVec.toInt_eq_toNat_cond, BitVec.toNat_ofNat]
  split <;> omega

theorem returns_signed {st : Bool} {x a : BitVec w} {exact : Int} {s s' : σ} :
    Returns st (signedOp x exact) s a s' ↔ (a = x ∧ s' = s) ∧ (st = true → x.toInt = exact) := by
  constructor
  · intro h
    obtain ⟨_, _, hcheck, hret⟩ := returns_bind.mp h
    obtain ⟨rfl, hexact⟩ := returns_check.mp hcheck
    exact ⟨returns_pure.mp hret, fun hs => of_decide_eq_true (hexact hs)⟩
  · rintro ⟨hret, hexact⟩
    exact returns_bind.mpr ⟨(), s, returns_check.mpr ⟨rfl, fun hs => decide_eq_true (hexact hs)⟩,
      returns_pure.mpr hret⟩

theorem signed_returns {st : Bool} {x : BitVec w} {exact : Int} {s : σ} (h : x.toInt = exact) :
    Returns st (signedOp x exact) s x s :=
  returns_signed.mpr ⟨⟨rfl, rfl⟩, fun _ => h⟩

theorem forward_signedOp (r : BitVec w) (exact : Int) :
    Forward R (signedOp r exact : Prog σ (BitVec w)) (signedOp r exact : Prog τ (BitVec w)) :=
  (Forward.check _).bind (fun _ => .pure r)

theorem forward_vaArg (ap : List Word) : Forward R (vaArg ap : Prog σ _) (vaArg ap : Prog τ _) := by
  cases ap with
  | nil => exact .fault
  | cons w ap => exact .pure _

theorem forward_vaArgLongLong (ap : List Word) :
    Forward R (vaArgLongLong ap : Prog σ _) (vaArgLongLong ap : Prog τ _) := by
  match ap with
  | [] => exact .fault
  | [_] => exact .fault
  | lo :: hi :: ap => exact .pure _

theorem forward_getuint (ap : List Word) (lflag : CInt) :
    Forward R (getuint ap lflag : Prog σ _) (getuint ap lflag : Prog τ _) :=
  .ite (forward_vaArgLongLong ap) ((forward_vaArg ap).bind (fun _ => .pure _))

theorem forward_getint (ap : List Word) (lflag : CInt) :
    Forward R (getint ap lflag : Prog σ _) (getint ap lflag : Prog τ _) :=
  .ite (forward_vaArgLongLong ap) ((forward_vaArg ap).bind (fun _ => .pure _))

namespace Host.Refines

variable (hR : Host.Refines R h h')

include hR

theorem charAt (p : Word) : Forward R (charAt h p) (charAt h' p) := by
  rintro strict s t c s' hst ⟨clean, hx, hc⟩
  unfold Cezos.charAt at hx
  cases hp : h.peek s p with
  | none => simp [hp] at hx
  | some b =>
    simp only [hp, Outcome.ret.injEq] at hx
    obtain ⟨rfl, rfl, rfl⟩ := hx
    exact ⟨t, ⟨true, by simp only [Cezos.charAt, hR.peek hst hp], fun _ => rfl⟩, hst⟩

theorem pad (ch width : CInt) : Forward R (pad h ch width) (pad h' ch width) := .forUp (fun _ => hR.putch ch) _ _

theorem printnum (n : ℕ) (num : BitVec 64) (base : Word) (width padc : CInt) :
    Forward R (printnum h n num base width padc) (printnum h' n num base width padc) := by
  induction n generalizing num width with
  | zero => exact .spin
  | succ n ih =>
    apply Forward.bind (forward_signedOp _ _)
    intro width
    exact (Forward.ite (ih _ _) (hR.pad _ _)).bind (fun _ => hR.putch _)

theorem digits {n m : ℕ} (hle : n ≤ m) (fmt : Word) (precision ch : CInt) :
    Forward R (digits h n fmt precision ch) (digits h' m fmt precision ch) := by
  induction n generalizing m fmt precision ch with
  | zero => exact .spin
  | succ n ih =>
    obtain ⟨m, rfl⟩ : ∃ k, m = k + 1 := ⟨m - 1, by omega⟩
    apply Forward.bind (forward_signedOp _ _)
    intro p₁
    apply Forward.bind (forward_signedOp _ _)
    intro p₂
    apply Forward.bind (forward_signedOp _ _)
    intro p₃
    apply Forward.bind (hR.charAt fmt)
    intro c
    exact .ite (.pure _) (ih (by omega) _ _ _)

theorem rewind {n m : ℕ} (hle : n ≤ m) (fmt : Word) : Forward R (rewind h n fmt) (rewind h' m fmt) := by
  induction n generalizing m fmt with
  | zero => exact .spin
  | succ n ih =>
    obtain ⟨m, rfl⟩ : ∃ k, m = k + 1 := ⟨m - 1, by omega⟩
    exact (hR.charAt _).bind (fun c => .ite (.pure _) (ih (by omega) _))

theorem countChars (p : Word) (precision : CInt) :
    Forward R (countChars h p precision) (countChars h' p precision) := by
  apply Forward.whileSome _ (Nat.le_refl _)
  intro i
  exact .ite ((hR.charAt _).bind (fun c => .ite (.pure _) (.pure _))) (.pure _)

theorem scanString (altflag : Bool) (sc : Scan) :
    Forward R (scanString h altflag sc) (scanString h' altflag sc) := by
  have hshow : ∀ ch (f : CInt → Scan), Forward R
      (do h.putch (shown altflag ch); let width ← signedSub sc.width 1#32; return some (f width))
      (do h'.putch (shown altflag ch); let width ← signedSub sc.width 1#32; return some (f width)) :=
    fun ch f => (hR.putch _).bind (fun _ => (forward_signedOp _ _).bind (fun _ => .pure _))
  apply Forward.bind (hR.charAt _)
  intro c
  apply Forward.ite (.pure _)
  apply Forward.ite (hshow _ _)
  apply Forward.bind (forward_signedOp _ _)
  intro precision
  exact .ite (hshow _ _) (.pure _)

theorem padString (d : Directive) (p : Word) : Forward R (padString h d p) (padString h' d p) :=
  .ite ((hR.countChars p _).bind (fun _ => (hR.pad _ _).bind (fun _ => .pure _))) (.pure _)

theorem putString {n m : ℕ} (hle : n ≤ m) (d : Directive) (p : Word) :
    Forward R (putString h n d p) (putString h' m d p) := by
  apply Forward.bind (hR.padString d p)
  intro width
  exact (Forward.whileSome (fun sc => hR.scanString _ sc) hle _).bind (fun sc => hR.pad _ _)

theorem putDecimal (d : Directive) (num : BitVec 64) : Forward R (putDecimal h d num) (putDecimal h' d num) := by
  apply Forward.ite _ (hR.printnum _ _ _ _ _)
  exact (hR.putch _).bind (fun _ => (forward_signedOp _ _).bind (fun _ => hR.printnum _ _ _ _ _))

variable {ro : Rodata} {f : Word → List Word → Prog σ Unit} {f' : Word → List Word → Prog τ Unit}
  (hf : ∀ fmt ap, Forward R (f fmt ap) (f' fmt ap))

include hf

theorem convert {n m : ℕ} (hle : n ≤ m) (token : Token) (ch : CInt) (d : Directive) :
    Forward R (convert h ro f n token ch d) (convert h' ro f' m token ch d) := by
  have hdone : ∀ (a : Word × List Word), Forward R (pure a : Prog σ _) (pure a : Prog τ _) := fun a => .pure a
  have hrewind : Forward R
      (do h.putch (chr '%'); let fmt ← Cezos.rewind h n (d.fmt - 1#32); return (fmt, d.ap))
      (do h'.putch (chr '%'); let fmt ← Cezos.rewind h' m (d.fmt - 1#32); return (fmt, d.ap)) :=
    (hR.putch _).bind (fun _ => (hR.rewind hle _).bind (fun _ => .pure _))
  cases token with
  | char => exact (forward_vaArg _).bind (fun _ => (hR.putch _).bind (fun _ => hdone _))
  | error =>
    have hput : ∀ err, Forward R (putError ro f err) (putError ro f' err) :=
      fun err => .ite (hf _ _) ((Forward.check _).bind (fun _ => .ite (hf _ _) (hf _ _)))
    apply Forward.bind (forward_vaArg _)
    intro _
    apply Forward.bind (.ite (forward_signedOp _ _) (.pure _))
    intro err
    exact (hput err).bind (fun _ => hdone _)
  | string => exact (forward_vaArg _).bind (fun _ => (hR.putString hle _ _).bind (fun _ => hdone _))
  | decimal => exact (forward_getint _ _).bind (fun _ => (hR.putDecimal _ _).bind (fun _ => hdone _))
  | unsigned => exact (forward_getuint _ _).bind (fun _ => (hR.printnum _ _ _ _ _).bind (fun _ => hdone _))
  | octal => exact (hR.putch _).bind (fun _ => (hR.putch _).bind (fun _ => (hR.putch _).bind (fun _ => hdone _)))
  | pointer =>
    apply Forward.bind (hR.putch _)
    intro _
    apply Forward.bind (hR.putch _)
    intro _
    exact (forward_vaArg _).bind (fun _ => (hR.printnum _ _ _ _ _).bind (fun _ => hdone _))
  | hex => exact (forward_getuint _ _).bind (fun _ => (hR.printnum _ _ _ _ _).bind (fun _ => hdone _))
  | percent => exact (hR.putch _).bind (fun _ => hdone _)
  | minus => exact hrewind
  | zero => exact hrewind
  | digit => exact hrewind
  | star => exact hrewind
  | dot => exact hrewind
  | alt => exact hrewind
  | long => exact hrewind
  | other => exact hrewind

theorem reswitch {n m k l : ℕ} (hle : n ≤ m) (hkl : k ≤ l) (d : Directive) :
    Forward R (reswitch h ro f n k d) (reswitch h' ro f' m l d) := by
  induction k generalizing l d with
  | zero => exact .spin
  | succ k ih =>
    obtain ⟨l, rfl⟩ : ∃ j, l = j + 1 := ⟨l - 1, by omega⟩
    have hnext : ∀ d, Forward R (Cezos.reswitch h ro f n k d) (Cezos.reswitch h' ro f' m l d) :=
      fun d => ih (by omega) d
    apply Forward.bind (hR.charAt _)
    intro c
    dsimp only
    split
    · exact hnext _
    · exact hnext _
    · exact (hR.digits hle _ _ _).bind (fun _ => hnext _)
    · exact (forward_vaArg _).bind (fun _ => hnext _)
    · exact hnext _
    · exact hnext _
    · exact (forward_signedOp _ _).bind (fun _ => hnext _)
    · exact hR.convert hf hle _ _ _

omit hf

theorem vprintfmt {n m : ℕ} (hle : n ≤ m) (fmt : Word) (ap : List Word) :
    Forward R (vprintfmt h ro n fmt ap) (vprintfmt h' ro m fmt ap) := by
  induction n generalizing m fmt ap with
  | zero => exact .spin
  | succ n ih =>
    obtain ⟨m, rfl⟩ : ∃ k, m = k + 1 := ⟨m - 1, by omega⟩
    have hrec : ∀ fmt ap, Forward R (Cezos.vprintfmt h ro n fmt ap) (Cezos.vprintfmt h' ro m fmt ap) :=
      fun fmt ap => ih (by omega) fmt ap
    apply Forward.bind (hR.charAt _)
    intro c
    apply Forward.ite
    · exact (hR.reswitch hrec (by omega) (by omega) _).bind (fun _ => hrec _ _)
    · exact .ite (.pure _) ((hR.putch _).bind (fun _ => hrec _ _))

end Host.Refines

end Cezos
