import Cezos.Stdio.Scanner

namespace Cezos

open Lib

variable {ro : Rodata} {mem : Bytes} {fmt : Word} {ap ap' : List Word} {d : Directive} {out : List CInt} {c : Byte}
  {bs cs body rest : List Byte} {w n l : ℕ}

def decimalBytes (n : ℕ) : List Byte := (Nat.toDigits 10 n).map (fun c => BitVec.ofNat 8 c.toNat)

theorem decimalBytes_eq (n : ℕ) : decimalBytes n =
    if n < 10 then [BitVec.ofNat 8 (48 + n)] else decimalBytes (n / 10) ++ [BitVec.ofNat 8 (48 + n % 10)] := by
  unfold decimalBytes
  split
  · next h =>
    rw [Nat.toDigits_of_lt_base h, List.map_singleton, Nat.toNat_digitChar_of_lt_ten h, Nat.add_comm]
  · next h =>
    rw [Nat.toDigits_of_base_le (by decide) (by omega), List.map_append, List.map_singleton,
      Nat.toNat_digitChar_of_lt_ten (Nat.mod_lt n (by decide)), Nat.add_comm 48]

theorem digit_byte {k : ℕ} (h : k < 10) : IsDigit (BitVec.ofNat 8 (48 + k)) := by
  revert k
  decide

theorem nextDigit_byte {k : ℕ} (h : k < 10) (n : ℕ) : nextDigit (BitVec.ofNat 32 n) (BitVec.ofNat 8 (48 + k)) =
    BitVec.ofNat 32 (n * 10 + k) := by
  have hk : ((BitVec.ofNat 8 (48 + k)).signExtend 32 : CInt) = BitVec.ofNat 32 k + chr '0' := by
    revert k
    decide
  rw [nextDigit, hk, ← BitVec.add_assoc, BitVec.add_sub_cancel, BitVec.ofNat_add, BitVec.ofNat_mul]

theorem decimalBytes_isDigit (n : ℕ) : ∀ c ∈ decimalBytes n, IsDigit c := by
  induction n using Nat.strongRecOn with
  | ind n ih =>
    rw [decimalBytes_eq]
    split
    · next h =>
      intro c hc
      rw [List.mem_singleton.mp hc]
      exact digit_byte h
    · intro c hc
      rcases List.mem_append.mp hc with hc | hc
      · exact ih (n / 10) (by omega) c hc
      · rw [List.mem_singleton.mp hc]
        exact digit_byte (Nat.mod_lt n (by decide))

theorem foldl_decimalBytes (n : ℕ) : (decimalBytes n).foldl nextDigit 0#32 = BitVec.ofNat 32 n := by
  induction n using Nat.strongRecOn with
  | ind n ih =>
    rw [decimalBytes_eq]
    split
    · next h =>
      have hd := nextDigit_byte h 0
      rwa [Nat.zero_mul, Nat.zero_add] at hd
    · rw [List.foldl_append, ih (n / 10) (by omega), List.foldl_cons, List.foldl_nil,
        nextDigit_byte (Nat.mod_lt n (by decide)), Nat.mul_comm, Nat.div_add_mod]

theorem decimalBytes_head (hn : 1 ≤ n) : ∃ c cs, decimalBytes n = c :: cs ∧ tokenOf (c.setWidth 32) = .digit := by
  induction n using Nat.strongRecOn with
  | ind n ih =>
    rw [decimalBytes_eq]
    split
    · next h =>
      have hall : ∀ k < 10, 1 ≤ k → tokenOf ((BitVec.ofNat 8 (48 + k)).setWidth 32) = .digit := by decide
      exact ⟨_, [], rfl, hall n h hn⟩
    · obtain ⟨c, cs, hcs, ht⟩ := ih (n / 10) (by omega) (by omega)
      exact ⟨c, cs ++ _, by rw [hcs, List.cons_append], ht⟩

theorem flags_numeral (hn : 1 ≤ n) (hc : ¬ IsDigit (cs.headD 0#8)) :
    Opts.flags (decimalBytes n ++ cs) ⟨d, none⟩ = Opts.flags cs ⟨d.setNumber (BitVec.ofNat 32 n), none⟩ := by
  obtain ⟨c, ds, hcs, ht⟩ := decimalBytes_head hn
  have hflag : Opts.flag ⟨d, none⟩ c = some ⟨d, some (nextDigit 0#32 c)⟩ := by
    change d.flag c = _
    rw [Directive.flag, ht]
  have hds : ∀ b ∈ ds, IsDigit b := fun b hb =>
    decimalBytes_isDigit n b (by rw [hcs]; exact List.mem_cons_of_mem c hb)
  rw [← foldl_decimalBytes n, hcs, List.cons_append, Opts.flags, hflag, Option.bind_some, flags_digits hds hc,
    List.foldl_cons]

inductive NumberText : ℕ → List Byte → List Word → Prop
  | numeral {w : ℕ} (hw : 1 ≤ w) (hle : w ≤ 2 ^ 30) : NumberText w (decimalBytes w) []
  | star {w : ℕ} (hle : w ≤ 2 ^ 30) : NumberText w [42#8] [BitVec.ofNat 32 w]

theorem NumberText.le {args : List Word} (h : NumberText w bs args) : w ≤ 2 ^ 30 := by
  cases h with
  | numeral hw hle => exact hle
  | star hle => exact hle

theorem NumberText.ne_nil {args : List Word} (h : NumberText w bs args) : bs ≠ [] := by
  cases h with
  | numeral hw hle =>
    obtain ⟨c, cs, hcs, _⟩ := decimalBytes_head hw
    rw [hcs]
    exact List.cons_ne_nil c cs
  | star hle => exact List.cons_ne_nil _ _

theorem NumberText.flags {args : List Word} (h : NumberText w bs args) (hap : d.ap = args ++ ap)
    (hc : ¬ IsDigit (cs.headD 0#8)) :
    Opts.flags (bs ++ cs) ⟨d, none⟩ =
      Opts.flags cs ⟨({ d with ap := ap } : Directive).setNumber (BitVec.ofNat 32 w), none⟩ := by
  cases h with
  | numeral hw hle =>
    rw [flags_numeral hw hc]
    obtain rfl : d.ap = ap := hap
    rfl
  | star hle =>
    have hflag : d.flag 42#8 = some ⟨({ d with ap := ap } : Directive).setNumber (BitVec.ofNat 32 w), none⟩ := by
      rw [Directive.flag, show tokenOf ((42#8 : Byte).setWidth 32) = .star by decide]
      simp only [hap, List.singleton_append]
    change (d.flag 42#8).bind (Opts.flags cs) = _
    rw [hflag, Option.bind_some]

theorem NumberText.isFlag {args : List Word} (h : NumberText w bs args) : ∀ c ∈ bs, IsFlag c := by
  cases h with
  | numeral hw hle => exact fun c hc => isDigit_isFlag (decimalBytes_isDigit w c hc)
  | star hle => decide

def WidthText (w : ℕ) (bs : List Byte) (args : List Word) : Prop :=
  (w = 0 ∧ bs = [] ∧ args = []) ∨ NumberText w bs args

theorem WidthText.flags {args : List Word} (h : WidthText w bs args) (hd : d.width = -1#32)
    (hp : d.precision = -1#32)
    (hap : d.ap = args ++ ap) (hc : ¬ IsDigit (cs.headD 0#8)) :
    Opts.flags (bs ++ cs) ⟨d, none⟩ =
      Opts.flags cs ⟨{ d with width := if bs = [] then -1#32 else BitVec.ofNat 32 w, ap := ap }, none⟩ := by
  rcases h with ⟨rfl, rfl, rfl⟩ | h
  · obtain rfl : d.ap = ap := hap
    rw [if_pos rfl, ← hd]
    rfl
  · have hset : ({ d with ap := ap } : Directive).setNumber (BitVec.ofNat 32 w) =
      { d with width := BitVec.ofNat 32 w, ap := ap } := by
      unfold Directive.setNumber Directive.processPrecision
      rw [if_pos (by rw [hd]; decide)]
      simp only [hp]
    rw [h.flags hap hc, hset, if_neg h.ne_nil]

theorem WidthText.isFlag {args : List Word} (h : WidthText w bs args) : ∀ c ∈ bs, IsFlag c := by
  rcases h with ⟨_, rfl, _⟩ | h
  · simp
  · exact h.isFlag

theorem WidthText.le {args : List Word} (h : WidthText w bs args) : w ≤ 2 ^ 30 := by
  rcases h with ⟨rfl, _⟩ | h
  · omega
  · exact h.le

theorem WidthText.eq_zero {args : List Word} (h : WidthText w bs args) (hb : bs = []) : w = 0 := by
  rcases h with ⟨hw, _⟩ | h
  · exact hw
  · exact absurd hb h.ne_nil

theorem WidthText.room {args : List Word} (h : WidthText w bs args) {k : ℕ} (hk : k ≤ 2 ^ 30) :
    ((if bs = [] then -1#32 else BitVec.ofNat 32 w) - BitVec.ofNat 32 k).toInt.toNat = w - k := by
  have hnone : (-1#32 : CInt).toInt = -1 := by decide
  have hsmall : (BitVec.ofNat 32 k).toInt = k := toInt_ofNat_small (by omega)
  rcases h with ⟨rfl, rfl, _⟩ | h
  · rw [if_pos rfl, toInt_sub_small (by omega) (by omega)]
    omega
  · have hw := h.le
    have hwidth : (BitVec.ofNat 32 w).toInt = w := toInt_ofNat_small (by omega)
    rw [if_neg h.ne_nil, toInt_sub_small (by omega) (by omega)]
    omega

end Cezos
