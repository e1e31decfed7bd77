import Cezos.Lib.Places
import Cezos.Stdio.Arithmetic

namespace Cezos

open Lib

variable {σ : Type} {h : Host σ} {num : BitVec 64} {base : Word} {ch width padc : CInt} {out out' : List CInt}
    {n : ℕ}

def putAll (h : Host σ) : List CInt → Prog σ Unit
  | [] => return ()
  | ch :: out => do
    h.putch ch
    putAll h out

theorem putAll_append : putAll h (out ++ out') = (putAll h out >>= fun _ => putAll h out') := by
  induction out with
  | nil => exact Prog.pure_bind.symm
  | cons ch out ih => rw [List.cons_append, putAll, putAll, ih, Prog.bind_assoc]

theorem bind_unit {x : Prog σ Unit} : (x >>= fun _ => pure ()) = x := by
  funext s
  change Prog.bind x (fun _ => Prog.pure ()) s = x s
  unfold Prog.bind Prog.pure
  cases x s <;> simp

theorem putAll_single : putAll h [ch] = h.putch ch := bind_unit

theorem pad_eq : pad h ch width = putAll h (List.replicate width.toInt.toNat ch) := by
  have hloop : ∀ i n, Prog.forUp (fun _ => h.putch ch) i n = putAll h (List.replicate n ch) := by
    intro i n
    induction n generalizing i with
    | zero => rfl
    | succ n ih =>
      rw [List.replicate_succ, putAll, ← ih (i + 1)]
      rfl
  exact hloop 0 _

theorem signedOp_eq {w : ℕ} {r : BitVec w} {exact : Int} (hr : r.toInt = exact) :
    (signedOp r exact : Prog σ _) = pure r := by
  have hcheck : (Prog.check (fun _ => decide (r.toInt = exact)) : Prog σ Unit) = pure () := by
    rw [decide_eq_true hr]
    rfl
  rw [signedOp, hcheck]
  exact Prog.pure_bind

def printedNumber (base n : ℕ) (width : Int) (padc : CInt) : List CInt :=
  List.replicate (width - (places base n).length).toNat padc ++ (places base n).map digitChar

theorem printnum_eq (hb : 2 ≤ base.toNat) (hle : base.toNat ≤ 16) (h0 : n ≠ 0) (hn : num.toNat < 2 ^ n)
    (hw : -2147483648 + (n : Int) ≤ width.toInt) :
    printnum h n num base width padc = putAll h (printedNumber base.toNat num.toNat width.toInt padc) := by
  have hbase : (base.setWidth 64).toNat = base.toNat := by
    rw [BitVec.toNat_setWidth]
    omega
  have hone : (1#32 : CInt).toInt = 1 := by decide
  induction n generalizing num width with
  | zero => exact absurd rfl h0
  | succ n ih =>
    have hmax := BitVec.toInt_lt (x := width)
    have hdown : (width - 1#32).toInt = width.toInt - (1#32 : CInt).toInt := by
      rw [toInt_sub_eq]
      omega
    rw [printnum, signedSub, signedOp_eq hdown, Prog.pure_bind, BitVec.toNat_umod, hbase]
    rw [hone] at hdown
    by_cases hmore : base.toNat ≤ num.toNat
    · have hcond : base.setWidth 64 ≤ num := by rwa [BitVec.le_def, hbase]
      have hdiv : (num / base.setWidth 64).toNat = num.toNat / base.toNat := by rw [BitVec.toNat_udiv, hbase]
      have hlt : (num / base.setWidth 64).toNat < 2 ^ n := by
        rw [hdiv]
        exact div_base_lt hb hn
      have hn0 : n ≠ 0 := by
        rintro rfl
        omega
      rw [if_pos hcond, ih hn0 hlt (by omega), hdiv, hdown, ← putAll_single, ← putAll_append]
      congr 1
      unfold printedNumber
      rw [places_of_le (by omega) hmore, List.map_append, List.map_singleton, ← List.append_assoc,
        List.length_append,
        List.length_singleton]
      congr 4
      omega
    · have hcond : ¬ base.setWidth 64 ≤ num := by rwa [BitVec.le_def, hbase]
      rw [if_neg hcond, pad_eq, hdown, ← putAll_single, ← putAll_append, Nat.mod_eq_of_lt (by omega)]
      unfold printedNumber
      rw [places_of_lt (by omega)]
      rfl

theorem printnum_positional (hb : 2 ≤ base.toNat) (hle : base.toNat ≤ 16) (hlow : -1073741824 < width.toInt)
    (hhigh : width.toInt < 1073741824) : ∃ ds, Positional base.toNat num.toNat ds ∧ ∀ {σ : Type} (h : Host σ),
      printnum h 64 num base width padc =
        putAll h (List.replicate (width.toInt - ds.length).toNat padc ++ ds.map digitChar) :=
  ⟨places base.toNat num.toNat, positional_places (by omega) _, fun _ =>
  printnum_eq hb hle (by decide) num.isLt (by omega)⟩

theorem printnum_positional_hex : ∃ ds, Positional 16 2748 ds ∧ ∀ {σ : Type} (h : Host σ),
    printnum h 64 2748#64 16#32 5#32 48#32 =
      putAll h (List.replicate ((5 : Int) - ds.length).toNat 48#32 ++ ds.map digitChar) :=
  @printnum_positional 2748#64 16#32 5#32 48#32 (by decide) (by decide) (by decide) (by decide)

end Cezos
