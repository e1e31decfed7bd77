import Cezos.Stdio.Printnum
import Mathlib.Data.List.Pairwise

namespace Cezos.Arch64

open Lib

variable {σ : Type} {a b x y : BitVec 64} {n : CInt} {w : ℕ}

def hi (a : BitVec 64) : Word := a.extractLsb' 32 32

def lo (a : BitVec 64) : Word := a.extractLsb' 0 32

def shiftCount (w : ℕ) (n : CInt) : Prog σ ℕ := do
  Prog.check (fun _ => decide (0 ≤ n.toInt ∧ n.toInt < w))
  return n.toNat

theorem check_true {p : Prop} [Decidable p] (h : p) : (Prog.check (fun _ => decide p) : Prog σ Unit) = pure () := by
  rw [decide_eq_true h]
  rfl

theorem shiftCount_eq (hn : n.toNat < w) (hw : w ≤ 2147483648) : (shiftCount w n : Prog σ ℕ) = pure n.toNat := by
  have hcond := BitVec.toInt_eq_toNat_cond n
  rw [if_pos (by omega)] at hcond
  rw [shiftCount, check_true (by omega)]
  exact Prog.pure_bind

/-- The body of the three shifts: `far` is the result for a count of 32 and more, `near` that for a smaller one. -/
def shiftHalves (a : BitVec 64) (b : CInt) (far : ℕ → BitVec 64) (near : ℕ → ℕ → BitVec 64) : Prog σ (BitVec 64) :=
  let b := b &&& 63#32
  if 32 ≤ b.toInt then do
    let n ← shiftCount 32 (b - 32#32)
    return far n
  else if b ≠ 0#32 then do
    let m ← shiftCount 32 (32#32 - b)
    let n ← shiftCount 32 b
    return near m n
  else return a

def ashldi3 (a : BitVec 64) (b : CInt) : Prog σ (BitVec 64) :=
  shiftHalves a b (fun n => (lo a <<< n) ++ 0#32) (fun m n => ((lo a >>> m) ||| (hi a <<< n)) ++ (lo a <<< n))

def ashrdi3 (a : BitVec 64) (b : CInt) : Prog σ (BitVec 64) :=
  shiftHalves a b (fun n => (hi a).sshiftRight 31 ++ (hi a).sshiftRight n)
    (fun m n => (hi a).sshiftRight n ++ ((hi a <<< m) ||| (lo a >>> n)))

def lshrdi3 (a : BitVec 64) (b : CInt) : Prog σ (BitVec 64) :=
  shiftHalves a b (fun n => 0#32 ++ (hi a >>> n)) (fun m n => (hi a >>> n) ++ ((hi a <<< m) ||| (lo a >>> n)))

theorem shiftHalves_eq {far : ℕ → BitVec 64} {near : ℕ → ℕ → BitVec 64} (shift : ℕ → BitVec 64) (h0 : shift 0 = a)
    (hfar : ∀ n < 32, far n = shift (32 + n)) (hnear : ∀ n, 0 < n → n < 32 → near (32 - n) n = shift n) (b : CInt) :
    (shiftHalves a b far near : Prog σ _) = pure (shift (b.toNat % 64)) := by
  have hb : (b &&& 63#32).toNat = b.toNat % 64 := by
    rw [BitVec.toNat_and]
    exact Nat.and_two_pow_sub_one_eq_mod b.toNat 6
  have hcond := BitVec.toInt_eq_toNat_cond (b &&& 63#32)
  rw [if_pos (by omega)] at hcond
  unfold shiftHalves
  rw [← hb]
  generalize b &&& 63#32 = c at *
  by_cases hbig : 32 ≤ c.toInt
  · have hc : (c - 32#32).toNat = c.toNat - 32 := by bv_omega
    rw [if_pos hbig, shiftCount_eq (by omega) (by decide), Prog.pure_bind, hc, hfar _ (by omega)]
    congr 2
    omega
  · rw [if_neg hbig]
    by_cases hzero : c = 0#32
    · rw [if_neg (not_not.mpr hzero), hzero]
      exact congrArg pure h0.symm
    · have hpos : 0 < c.toNat := by bv_omega
      have hc : (32#32 - c).toNat = 32 - c.toNat := by bv_omega
      rw [if_pos hzero, shiftCount_eq (by omega) (by decide), Prog.pure_bind, shiftCount_eq (by omega)
        (by decide), Prog.pure_bind, hc,
        hnear _ hpos (by omega)]

theorem ashldi3_eq (b : CInt) : (ashldi3 a b : Prog σ _) = pure (a <<< (b.toNat % 64)) := by
  apply shiftHalves_eq (fun k => a <<< k)
  · exact BitVec.shiftLeft_zero a
  · intro n hn
    ext i hi
    rw [BitVec.getElem_append, BitVec.getElem_shiftLeft]
    grind [lo]
  · intro n hpos hn
    ext i hi
    rw [BitVec.getElem_append, BitVec.getElem_shiftLeft]
    grind [lo, hi]

theorem lshrdi3_eq (b : CInt) : (lshrdi3 a b : Prog σ _) = pure (a >>> (b.toNat % 64)) := by
  apply shiftHalves_eq (fun k => a >>> k)
  · exact BitVec.ushiftRight_zero a
  · intro n hn
    ext i hi
    rw [BitVec.getElem_append, BitVec.getElem_ushiftRight]
    grind [lo, hi]
  · intro n hpos hn
    ext i hi
    rw [BitVec.getElem_append, BitVec.getElem_ushiftRight]
    grind [lo, hi]

theorem ashrdi3_eq (b : CInt) : (ashrdi3 a b : Prog σ _) = pure (a.sshiftRight (b.toNat % 64)) := by
  apply shiftHalves_eq (fun k => a.sshiftRight k)
  · exact BitVec.sshiftRight_zero
  · intro n hn
    ext i hi
    rw [BitVec.getElem_append, BitVec.getElem_sshiftRight]
    grind [lo, hi]
  · intro n hpos hn
    ext i hi
    rw [BitVec.getElem_append, BitVec.getElem_sshiftRight]
    grind [lo, hi]

theorem shifts (a : BitVec 64) (b : CInt) : (ashldi3 a b : Prog σ _) = pure (a <<< (b.toNat % 64)) ∧
    (lshrdi3 a b : Prog σ _) = pure (a >>> (b.toNat % 64)) ∧
    (ashrdi3 a b : Prog σ _) = pure (a.sshiftRight (b.toNat % 64)) :=
  ⟨ashldi3_eq b, lshrdi3_eq b, ashrdi3_eq b⟩

end Cezos.Arch64
