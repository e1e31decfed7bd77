import Cezos.Lib.Ends
import Cezos.Stdio.Scanner
import Cezos.Stdio.StringField
import Cezos.Strings.Memory

namespace Cezos.Strings

open Lib

variable {st : Bool} {mem mem' : Bytes} {s1 s2 p q r size len : Word} {a b : Byte} {x y z : List Byte}
    {v w : CInt} {n : ℕ}
  {within : Word → Bool}

/-! ### `strcmp`, `strncmp` and `memcmp` -/

/-- The loop of `strcmp` and `strncmp`; `within` is what else it asks of the index. -/
def compareFrom (within : Word → Bool) (s1 s2 : Word) : ℕ → Word → Prog Bytes CInt
  | 0, _ => Prog.spin
  | fuel + 1, i => do
    let a ← load (s1 + i)
    if a = 0#8 then return 0#32
    else do
      let b ← load (s2 + i)
      if b = 0#8 ∨ within i = false then return 0#32
      else do
        let diff ← signedSub (a.signExtend 32 : CInt) (b.signExtend 32)
        if diff ≠ 0#32 then signedNeg diff
        else compareFrom within s1 s2 fuel (i + 1#32)

def strcmp (fuel : ℕ) (s1 s2 : Word) : Prog Bytes CInt := compareFrom (fun _ => true) s1 s2 fuel 0#32

def strncmp (fuel : ℕ) (s1 s2 size : Word) : Prog Bytes CInt :=
  compareFrom (fun i => decide (i < size)) s1 s2 fuel 0#32

def memcmpFrom : ℕ → Word → Word → Prog Bytes CInt
  | 0, _, _ => return 0#32
  | len + 1, s1, s2 => do
    let a ← load s1
    let b ← load s2
    if a ≠ b then signedSub (a.setWidth 32 : CInt) (b.setWidth 32)
    else memcmpFrom len (s1 + 1#32) (s2 + 1#32)

def memcmp (v1 v2 len : Word) : Prog Bytes CInt := memcmpFrom len.toNat v1 v2

/-! ### What they answer -/

def compared : List Byte → List Byte → CInt
  | a :: x, b :: y => if a = b then compared x y else -(a.signExtend 32 - b.signExtend 32)
  | _, _ => 0#32

def memCompared : List Byte → List Byte → CInt
  | a :: x, b :: y => if a = b then memCompared x y else a.setWidth 32 - b.setWidth 32
  | _, _ => 0#32

def commonLength : List Byte → List Byte → ℕ
  | a :: x, b :: y => if a = b then commonLength x y + 1 else 0
  | _, _ => 0

theorem toInt_difference (a b : Byte) : (a.signExtend 32 - b.signExtend 32 : CInt).toInt = a.toInt - b.toInt := by
  have ha := a.le_toInt
  have ha' := a.toInt_lt
  have hb := b.le_toInt
  have hb' := b.toInt_lt
  rw [BitVec.toInt_sub, BitVec.toInt_signExtend_of_le (by decide), BitVec.toInt_signExtend_of_le (by decide)]
  apply Int.bmod_eq_of_le
  · omega
  · omega

theorem toInt_neg_difference (a b : Byte) : (-(a.signExtend 32 - b.signExtend 32) : CInt).toInt = b.toInt -
    a.toInt := by
  have ha := a.le_toInt
  have ha' := a.toInt_lt
  have hb := b.le_toInt
  have hb' := b.toInt_lt
  rw [BitVec.toInt_neg, toInt_difference, Int.neg_sub]
  apply Int.bmod_eq_of_le
  · omega
  · omega

theorem toInt_unsigned_difference (a b : Byte) : (a.setWidth 32 - b.setWidth 32 : CInt).toInt = a.toNat -
    b.toNat := by
  have ha := a.isLt
  have hb := b.isLt
  have hwide : ∀ c : Byte, (c.setWidth 32 : CInt).toInt = c.toNat := fun c => by
    have hc := c.isLt
    rw [BitVec.toInt_eq_toNat_cond, BitVec.toNat_setWidth, Nat.mod_eq_of_lt (by omega), if_pos (by omega)]
  rw [BitVec.toInt_sub, hwide, hwide]
  apply Int.bmod_eq_of_le
  · omega
  · omega

theorem difference_returns (a b : Byte) :
    Returns st (signedSub (a.signExtend 32 : CInt) (b.signExtend 32)) mem (a.signExtend 32 - b.signExtend 32)
      mem := by
  apply signed_returns
  rw [toInt_difference, BitVec.toInt_signExtend_of_le (by decide), BitVec.toInt_signExtend_of_le (by decide)]

theorem neg_difference_returns (a b : Byte) :
    Returns st (signedNeg (a.signExtend 32 - b.signExtend 32 : CInt)) mem (-(a.signExtend 32 - b.signExtend 32))
      mem := by
  apply signed_returns
  rw [toInt_neg_difference, toInt_difference, Int.neg_sub]

theorem difference_eq_zero {a b : Byte} : (a.signExtend 32 - b.signExtend 32 : CInt) = 0#32 ↔ a = b := by
  rw [← BitVec.toInt_inj, toInt_difference, ← BitVec.toInt_inj]
  change _ = (0 : Int) ↔ _
  omega

theorem compareFrom_returns {i : Word} (hx : IsCString mem (s1 + i) x) (hy : IsCString mem (s2 + i) y)
    (hw : ∀ k ≤ x.length, within (i + BitVec.ofNat 32 k) = decide (k < n)) {fuel : ℕ} (hf : x.length < fuel) :
    Returns true (compareFrom within s1 s2 fuel i) mem (compared (x.take n) (y.take n)) mem := by
  induction x generalizing y i n fuel with
  | nil =>
    obtain ⟨fuel, rfl⟩ : ∃ k, fuel = k + 1 := ⟨fuel - 1, by omega⟩
    rw [compareFrom, List.take_nil, compared.eq_def]
    refine returns_bind.mpr ⟨0#8, mem, returns_load.mpr ⟨hx.nil, rfl⟩, returns_ite.mpr (Or.inl ⟨rfl, ?_⟩)⟩
    exact returns_pure.mpr ⟨rfl, rfl⟩
  | cons a x ih =>
    obtain ⟨fuel, rfl⟩ : ∃ k, fuel = k + 1 := ⟨fuel - 1, by omega⟩
    have hfirst := hw 0 (Nat.zero_le _)
    rw [BitVec.add_zero] at hfirst
    rw [compareFrom]
    refine returns_bind.mpr ⟨a, mem, returns_load.mpr ⟨hx.head, rfl⟩, returns_ite.mpr (Or.inr ⟨hx.head_ne, ?_⟩)⟩
    refine returns_bind.mpr ⟨y.headD 0#8, mem, returns_load.mpr ⟨hy.next, rfl⟩, returns_ite.mpr ?_⟩
    cases y with
    | nil =>
      refine Or.inl ⟨Or.inl rfl, returns_pure.mpr ⟨?_, rfl⟩⟩
      rw [List.take_nil, compared.eq_def]
      cases n <;> rfl
    | cons b y =>
      cases n with
      | zero => exact Or.inl ⟨Or.inr hfirst, returns_pure.mpr ⟨rfl, rfl⟩⟩
      | succ n =>
        have hnext : ¬ ((b :: y).headD 0#8 = 0#8 ∨ within i = false) := by
          rw [hfirst]
          exact not_or.mpr ⟨hy.head_ne, by simp⟩
        refine Or.inr ⟨hnext, returns_bind.mpr ⟨_, mem, difference_returns a b, returns_ite.mpr ?_⟩⟩
        rw [List.take_succ_cons, List.take_succ_cons, compared]
        by_cases hab : a = b
        · rw [if_pos hab]
          refine Or.inr ⟨not_not.mpr (difference_eq_zero.mpr hab), ?_⟩
          have hx' := hx.tail
          have hy' := hy.tail
          rw [BitVec.add_assoc] at hx' hy'
          refine ih hx' hy' (fun k hk => ?_) (by rw [List.length_cons] at hf; omega)
          have hk' := hw (k + 1) (by rw [List.length_cons]; omega)
          rw [Nat.add_comm, BitVec.ofNat_add, ← BitVec.add_assoc] at hk'
          rw [hk']
          exact decide_eq_decide.mpr (by omega)
        · rw [if_neg hab]
          exact Or.inl ⟨mt difference_eq_zero.mp hab, neg_difference_returns a b⟩

theorem memcmpFrom_returns {k : ℕ} (hx : Holds mem p x) (hy : Holds mem q y) (hn : k ≤ x.length)
    (hn' : k ≤ y.length) :
    Returns true (memcmpFrom k p q) mem (memCompared (x.take k) (y.take k)) mem := by
  induction k generalizing x y p q with
  | zero => exact returns_pure.mpr ⟨rfl, rfl⟩
  | succ k ih =>
    obtain ⟨a, x, rfl⟩ := List.exists_cons_of_length_pos (Nat.zero_lt_of_lt hn)
    obtain ⟨b, y, rfl⟩ := List.exists_cons_of_length_pos (Nat.zero_lt_of_lt hn')
    rw [memcmpFrom, List.take_succ_cons, List.take_succ_cons, memCompared]
    refine returns_bind.mpr ⟨a, mem, returns_load.mpr ⟨hx.1, rfl⟩,
      returns_bind.mpr ⟨b, mem, returns_load.mpr ⟨hy.1, rfl⟩, ?_⟩⟩
    rw [returns_ite]
    by_cases hab : a = b
    · rw [if_pos hab]
      exact Or.inr ⟨not_not.mpr hab, ih hx.2 hy.2 (Nat.le_of_succ_le_succ hn) (Nat.le_of_succ_le_succ hn')⟩
    · rw [if_neg hab]
      refine Or.inl ⟨hab, signed_returns ?_⟩
      have hwide : ∀ c : Byte, (c.setWidth 32 : CInt).toInt = c.toNat := fun c => by
        have hzero := toInt_unsigned_difference c 0#8
        rwa [BitVec.setWidth_zero, BitVec.sub_zero] at hzero
      rw [toInt_unsigned_difference, hwide, hwide]

/-! ### The order of strings -/

def Opposed (x y : List Byte) : Prop := ∃ pre a b x' y', x = pre ++ a :: x' ∧ y = pre ++ b :: y' ∧ a.msb ≠ b.msb

theorem opposed_cons : Opposed (a :: x) (b :: y) ↔ a.msb ≠ b.msb ∨ (a = b ∧ Opposed x y) := by
  constructor
  · rintro ⟨pre, c, d, x', y', hx, hy, hcd⟩
    cases pre with
    | nil =>
      cases hx
      cases hy
      exact Or.inl hcd
    | cons e pre =>
      cases hx
      cases hy
      exact Or.inr ⟨rfl, pre, c, d, x', y', rfl, rfl, hcd⟩
  · rintro (h | ⟨rfl, pre, c, d, x', y', rfl, rfl, h⟩)
    · exact ⟨[], a, b, x, y, rfl, rfl, h⟩
    · exact ⟨a :: pre, c, d, x', y', rfl, rfl, h⟩

theorem not_opposed_nil_left : ¬ Opposed [] y := by
  rintro ⟨pre, c, d, x', y', hx, _⟩
  cases pre <;> cases hx

theorem not_opposed_nil_right : ¬ Opposed x [] := by
  rintro ⟨pre, c, d, x', y', _, hy, _⟩
  cases pre <;> cases hy

theorem sign_eq_iff {i j : Int} : i.sign = j.sign ↔ (0 < i ↔ 0 < j) ∧ (i < 0 ↔ j < 0) := by
  constructor
  · intro h
    rw [← Int.sign_eq_one_iff_pos, ← Int.sign_eq_neg_one_iff_neg, h, Int.sign_eq_one_iff_pos,
      Int.sign_eq_neg_one_iff_neg]
    exact ⟨Iff.rfl, Iff.rfl⟩
  · rintro ⟨hpos, hneg⟩
    rcases Int.lt_trichotomy i 0 with hi | hi | hi
    · rw [Int.sign_eq_neg_one_of_neg hi, Int.sign_eq_neg_one_of_neg (hneg.mp hi)]
    · rw [hi, show j = 0 by omega]
    · rw [Int.sign_eq_one_of_pos hi, Int.sign_eq_one_of_pos (hpos.mp hi)]

theorem msb_ne_iff : a.msb ≠ b.msb ↔ (128 ≤ a.toNat ↔ b.toNat < 128) := by
  have hcond : ∀ c : Byte, c.msb = decide (128 ≤ c.toNat) := fun c => BitVec.msb_eq_decide c
  rw [hcond, hcond, Ne, decide_eq_decide]
  omega

theorem sign_difference (h : a ≠ b) : (b.toInt - a.toInt).sign = ((a.toNat : Int) - b.toNat).sign ↔
    a.msb ≠ b.msb := by
  have hne : a.toNat ≠ b.toNat := fun he => h (BitVec.eq_of_toNat_eq he)
  have ha := a.isLt
  have hb := b.isLt
  rw [sign_eq_iff, msb_ne_iff, BitVec.toInt_eq_toNat_cond, BitVec.toInt_eq_toNat_cond]
  split <;> split <;> omega

theorem compared_self : compared x x = 0#32 := by
  induction x with
  | nil => rfl
  | cons a x ih => rw [compared, if_pos rfl, ih]

theorem compared_eq_zero_iff : compared x y = 0#32 ↔ x <+: y ∨ y <+: x := by
  induction x generalizing y with
  | nil => exact iff_of_true rfl (Or.inl List.nil_prefix)
  | cons a x ih =>
    cases y with
    | nil => exact iff_of_true rfl (Or.inr List.nil_prefix)
    | cons b y =>
      rw [compared, List.cons_prefix_cons, List.cons_prefix_cons]
      by_cases hab : a = b
      · rw [if_pos hab, ih, hab]
        simp
      · rw [if_neg hab]
        refine iff_of_false (fun hz => ?_) (by simp [hab, Ne.symm hab])
        have hzero := congrArg BitVec.toInt hz
        rw [toInt_neg_difference] at hzero
        change _ = (0 : Int) at hzero
        exact hab (BitVec.toInt_inj.mp (by omega))

theorem byte_pos {c : Byte} (h : c ≠ 0#8) : 0 < c.toNat :=
    Nat.pos_of_ne_zero (fun hz => h (BitVec.eq_of_toNat_eq hz))

theorem sign_compared_iff (hx : 0#8 ∉ x) (hy : 0#8 ∉ y) (hne : x ≠ y) :
    (compared x y).toInt.sign = (memCompared (x ++ [0#8]) (y ++ [0#8])).toInt.sign ↔ Opposed x y := by
  induction x generalizing y with
  | nil =>
    obtain ⟨b, y, rfl⟩ := List.exists_cons_of_ne_nil hne.symm
    have hb : 0#8 ≠ b := fun he => hy (he ▸ List.mem_cons_self)
    have hlt := byte_pos hb.symm
    rw [List.nil_append, List.cons_append, memCompared, if_neg hb, toInt_unsigned_difference, sign_eq_iff]
    change ((0 : Int) < 0 ↔ 0 < 0 - (b.toNat : Int)) ∧ ((0 : Int) < 0 ↔ 0 - (b.toNat : Int) < 0) ↔ _
    exact iff_of_false (by omega) not_opposed_nil_left
  | cons a x ih =>
    have ha : a ≠ 0#8 := fun he => hx (he ▸ List.mem_cons_self)
    cases y with
    | nil =>
      have hlt := byte_pos ha
      rw [List.nil_append, List.cons_append, memCompared, if_neg ha, toInt_unsigned_difference, sign_eq_iff]
      change ((0 : Int) < 0 ↔ 0 < (a.toNat : Int) - 0) ∧ ((0 : Int) < 0 ↔ (a.toNat : Int) - 0 < 0) ↔ _
      exact iff_of_false (by omega) not_opposed_nil_right
    | cons b y =>
      rw [opposed_cons, List.cons_append, List.cons_append, memCompared, compared]
      by_cases hab : a = b
      · have htail : x ≠ y := fun he => hne (by rw [hab, he])
        rw [if_pos hab, if_pos hab, hab]
        apply (ih (fun h => hx (List.mem_cons_of_mem a h)) (fun h => hy (List.mem_cons_of_mem b h)) htail).trans
        simp
      · rw [if_neg hab, if_neg hab, toInt_neg_difference, toInt_unsigned_difference, sign_difference hab]
        simp [hab]

theorem memCompared_neg_iff (hx : 0#8 ∉ x) (hy : 0#8 ∉ y) : (memCompared (x ++ [0#8]) (y ++ [0#8])).toInt < 0 ↔
    x < y := by
  induction x generalizing y with
  | nil =>
    cases y with
    | nil => exact iff_of_false (by decide) (List.not_lt_nil _)
    | cons b y =>
      have hb : 0#8 ≠ b := fun he => hy (he ▸ List.mem_cons_self)
      have hlt := byte_pos hb.symm
      rw [List.nil_append, List.cons_append, memCompared, if_neg hb, toInt_unsigned_difference]
      change 0 - (b.toNat : Int) < 0 ↔ _
      exact iff_of_true (by omega) (List.nil_lt_cons b y)
  | cons a x ih =>
    have ha : a ≠ 0#8 := fun he => hx (he ▸ List.mem_cons_self)
    cases y with
    | nil =>
      rw [List.nil_append, List.cons_append, memCompared, if_neg ha, toInt_unsigned_difference]
      change (a.toNat : Int) - 0 < 0 ↔ _
      exact iff_of_false (by omega) (List.not_lt_nil _)
    | cons b y =>
      rw [List.cons_append, List.cons_append, memCompared, List.cons_lt_cons_iff]
      by_cases hab : a = b
      · rw [if_pos hab, hab]
        apply (ih (fun h => hx (List.mem_cons_of_mem a h)) (fun h => hy (List.mem_cons_of_mem b h))).trans
        simp
      · rw [if_neg hab, toInt_unsigned_difference, BitVec.lt_def]
        simp only [hab, false_and, or_false]
        omega

theorem memCompared_swap : (memCompared y x).toInt = -(memCompared x y).toInt := by
  induction x generalizing y with
  | nil => cases y <;> rfl
  | cons a x ih =>
    cases y with
    | nil => rfl
    | cons b y =>
      rw [memCompared, memCompared]
      by_cases hab : a = b
      · rw [if_pos hab, if_pos hab.symm, ih]
      · rw [if_neg hab, if_neg (Ne.symm hab), toInt_unsigned_difference, toInt_unsigned_difference]
        omega

theorem compared_swap : (compared y x).toInt = -(compared x y).toInt := by
  induction x generalizing y with
  | nil => cases y <;> rfl
  | cons a x ih =>
    cases y with
    | nil => rfl
    | cons b y =>
      rw [compared, compared]
      by_cases hab : a = b
      · rw [if_pos hab, if_pos hab.symm, ih]
      · rw [if_neg hab, if_neg (Ne.symm hab), toInt_neg_difference, toInt_neg_difference]
        omega

theorem memCompared_ne (hx : 0#8 ∉ x) (hy : 0#8 ∉ y) (hne : x ≠ y) :
    (memCompared (x ++ [0#8]) (y ++ [0#8])).toInt ≠ 0 := by
  intro hz
  have hswap := @memCompared_swap (x ++ [0#8]) (y ++ [0#8])
  have hxy := mt (memCompared_neg_iff hx hy).mpr (by omega)
  have hyx := mt (memCompared_neg_iff hy hx).mpr (by omega)
  exact hne (List.le_antisymm hyx hxy)

theorem compared_nonpos_iff (hx : 0#8 ∉ x) (hy : 0#8 ∉ y) (h : x = y ∨ Opposed x y) : (compared x y).toInt ≤ 0 ↔
    x ≤ y := by
  by_cases hxy : x = y
  · rw [hxy, compared_self]
    exact iff_of_true (by decide) (List.le_refl y)
  · have hsign := (sign_compared_iff hx hy hxy).mpr (h.resolve_left hxy)
    have hle : x ≤ y ↔ ¬ y < x := Iff.rfl
    rw [sign_eq_iff] at hsign
    rw [hle, ← memCompared_neg_iff hy hx, memCompared_swap]
    omega

theorem memCompared_take : memCompared (x.take (commonLength x y + 1)) (y.take (commonLength x y + 1)) =
    memCompared x y := by
  induction x generalizing y with
  | nil => rw [List.take_nil, memCompared.eq_def, memCompared.eq_def]
  | cons a x ih =>
    cases y with
    | nil => rfl
    | cons b y =>
      rw [List.take_succ_cons, List.take_succ_cons, memCompared, memCompared, commonLength]
      by_cases hab : a = b
      · rw [if_pos hab, if_pos hab, if_pos hab, ih]
      · rw [if_neg hab, if_neg hab]

theorem commonLength_lt (hx : 0#8 ∉ x) (hy : 0#8 ∉ y) (hne : x ≠ y) :
    commonLength (x ++ [0#8]) (y ++ [0#8]) < (x ++ [0#8]).length ∧
      commonLength (x ++ [0#8]) (y ++ [0#8]) < (y ++ [0#8]).length ∧
      commonLength (x ++ [0#8]) (y ++ [0#8]) < max x.length y.length := by
  induction x generalizing y with
  | nil =>
    obtain ⟨b, y, rfl⟩ := List.exists_cons_of_ne_nil hne.symm
    have hb : 0#8 ≠ b := fun he => hy (he ▸ List.mem_cons_self)
    rw [List.nil_append, List.cons_append, commonLength, if_neg hb, List.length_cons, List.length_cons,
      List.length_cons]
    omega
  | cons a x ih =>
    have ha : a ≠ 0#8 := fun he => hx (he ▸ List.mem_cons_self)
    cases y with
    | nil =>
      rw [List.nil_append, List.cons_append, commonLength, if_neg ha, List.length_cons, List.length_cons,
        List.length_cons]
      omega
    | cons b y =>
      rw [List.cons_append, List.cons_append, commonLength, List.length_cons, List.length_cons, List.length_cons,
        List.length_cons]
      by_cases hab : a = b
      · have htail : x ≠ y := fun he => hne (by rw [hab, he])
        have hih := ih (fun h => hx (List.mem_cons_of_mem a h)) (fun h => hy (List.mem_cons_of_mem b h)) htail
        rw [if_pos hab]
        omega
      · rw [if_neg hab]
        omega

/-! ### The calls -/

def Strcmp (mem : Bytes) (s1 s2 : Word) (v : CInt) : Prop := Ends (fun fuel => strcmp fuel s1 s2) mem v mem

def Strncmp (mem : Bytes) (s1 s2 size : Word) (v : CInt) : Prop :=
  Ends (fun fuel => strncmp fuel s1 s2 size) mem v mem

theorem strcmp_returns (hx : IsCString mem p x) (hy : IsCString mem q y) {fuel : ℕ} (hf : x.length < fuel) :
    Returns true (strcmp fuel p q) mem (compared x y) mem := by
  have hx' : IsCString mem (p + 0#32) x := by rwa [BitVec.add_zero]
  have hy' : IsCString mem (q + 0#32) y := by rwa [BitVec.add_zero]
  have hr : Returns true (strcmp fuel p q) mem
      (compared (x.take (x.length + y.length + 1)) (y.take (x.length + y.length + 1))) mem := by
    refine compareFrom_returns hx' hy' (fun k hk => ?_) hf
    rw [eq_comm, decide_eq_true_iff]
    omega
  rwa [List.take_of_length_le (by omega), List.take_of_length_le (by omega)] at hr

theorem strcmp_ends (hx : IsCString mem p x) (hy : IsCString mem q y) : Strcmp mem p q (compared x y) :=
  ⟨x.length + 1, fun _ hf => strcmp_returns hx hy hf⟩

theorem strncmp_ends (hx : IsCString mem p x) (hy : IsCString mem q y) :
    Strncmp mem p q size (compared (x.take size.toNat) (y.take size.toNat)) := by
  refine ⟨x.length + 1, fun fuel hf => ?_⟩
  have hx' : IsCString mem (p + 0#32) x := by rwa [BitVec.add_zero]
  have hy' : IsCString mem (q + 0#32) y := by rwa [BitVec.add_zero]
  have hlen := hx.length_lt
  refine compareFrom_returns hx' hy' (fun k hk => ?_) hf
  rw [decide_eq_decide, BitVec.zero_add, BitVec.lt_def, BitVec.toNat_ofNat, Nat.mod_eq_of_lt (by omega)]

theorem memcmp_returns (hx : IsCString mem p x) (hy : IsCString mem q y) (hne : x ≠ y)
    (hlen : len.toNat = commonLength (x ++ [0#8]) (y ++ [0#8]) + 1) :
    Returns true (memcmp p q len) mem (memCompared (x ++ [0#8]) (y ++ [0#8])) mem := by
  obtain ⟨hl, hl', _⟩ := commonLength_lt hx.no_nul hy.no_nul hne
  have hr := memcmpFrom_returns hx.holds hy.holds (Nat.add_one_le_iff.mpr hl) (Nat.add_one_le_iff.mpr hl')
  rw [memCompared_take, ← hlen] at hr
  exact hr

theorem Strcmp.value (hx : IsCString mem p x) (hy : IsCString mem q y) (h : Strcmp mem p q v) :
    v = compared x y := by
  obtain ⟨N, hN⟩ := h
  obtain ⟨M, hM⟩ := strcmp_ends hx hy
  exact ((hN (max N M) (Nat.le_max_left N M)).unique (hM (max N M) (Nat.le_max_right N M))).1

theorem Strncmp.value (hx : IsCString mem p x) (hy : IsCString mem q y) (h : Strncmp mem p q size v) :
    v = compared (x.take size.toNat) (y.take size.toNat) := by
  obtain ⟨N, hN⟩ := h
  obtain ⟨M, hM⟩ := strncmp_ends hx hy
  exact ((hN (max N M) (Nat.le_max_left N M)).unique (hM (max N M) (Nat.le_max_right N M))).1

/-- `strcmp` is 0 for equal strings only, and has the sign of `memcmp` up to the first difference for others. -/
def Ordered (mem : Bytes) (p q : Word) (x y : List Byte) : Prop :=
  ∀ v, Strcmp mem p q v → (v = 0#32 ↔ x = y) ∧
    (x ≠ y → ∀ len w, len.toNat = commonLength (x ++ [0#8]) (y ++ [0#8]) + 1 →
    Returns false (memcmp p q len) mem w mem →
      v.toInt.sign = w.toInt.sign)

theorem ordered_iff (hx : IsCString mem p x) (hy : IsCString mem q y) : Ordered mem p q x y ↔ x = y ∨
    Opposed x y := by
  have hend := strcmp_ends hx hy
  by_cases hxy : x = y
  · refine iff_of_true (fun v hv => ⟨?_, fun hne => absurd hxy hne⟩) (Or.inl hxy)
    rw [hv.value hx hy, hxy, compared_self]
    exact iff_of_true rfl rfl
  · have hsign := sign_compared_iff hx.no_nul hy.no_nul hxy
    constructor
    · intro h
      obtain ⟨len, hlen⟩ : ∃ len : Word, len.toNat = commonLength (x ++ [0#8]) (y ++ [0#8]) + 1 := by
        have hlt := (commonLength_lt hx.no_nul hy.no_nul hxy).2.2
        have hl := hx.length_lt
        have hl' := hy.length_lt
        exact ⟨BitVec.ofNat 32 _, by rw [BitVec.toNat_ofNat]; apply Nat.mod_eq_of_lt; omega⟩
      exact Or.inr (hsign.mp ((h _ hend).2 hxy len _ hlen (memcmp_returns hx hy hxy hlen).loosen))
    · rintro (he | ho) v hv
      · exact absurd he hxy
      · have hvalue := hv.value hx hy
        rw [hvalue]
        refine ⟨iff_of_false (fun hz => ?_) hxy, fun _ len w hlen hw => ?_⟩
        · have hzero := hsign.mpr ho
          rw [hz, eq_comm] at hzero
          exact memCompared_ne hx.no_nul hy.no_nul hxy (Int.sign_eq_zero_iff_zero.mp hzero)
        · rw [(hw.unique (memcmp_returns hx hy hxy hlen)).1]
          exact hsign.mpr ho

structure Lexicographic (mem : Bytes) (p q r : Word) (x y z : List Byte) : Prop where
  first : Ordered mem p q x y
  second : Ordered mem q r y z
  third : Ordered mem p r x z
  antisymm : ∀ v w, Strcmp mem p q v → Strcmp mem q p w → w.toInt.sign = -v.toInt.sign
  trans : ∀ u v w, Strcmp mem p q u → Strcmp mem q r v → Strcmp mem p r w → u.toInt ≤ 0 → v.toInt ≤ 0 → w.toInt ≤ 0
  cut : ∀ size mem' a b, IsCString mem' a (x.take size.toNat) → IsCString mem' b (y.take size.toNat) →
    ∀ v w, Strncmp mem p q size v → Strcmp mem' a b w → v.toInt.sign = w.toInt.sign

theorem strcmp_lexicographic_iff (hx : IsCString mem p x) (hy : IsCString mem q y) (hz : IsCString mem r z) :
    (∃ v, Strcmp mem p q v) ∧ (∀ size, ∃ v, Strncmp mem p q size v) ∧
    (x ≠ y → ∀ len, len.toNat = commonLength (x ++ [0#8]) (y ++ [0#8]) + 1 →
    ∃ w, Returns true (memcmp p q len) mem w mem) ∧
    (Lexicographic mem p q r x y z ↔ (x = y ∨ Opposed x y) ∧ (y = z ∨ Opposed y z) ∧ (x = z ∨ Opposed x z)) := by
  refine ⟨⟨_, strcmp_ends hx hy⟩, fun size => ⟨_, strncmp_ends hx hy⟩, fun hne len hlen =>
    ⟨_, memcmp_returns hx hy hne hlen⟩, ?_⟩
  constructor
  · intro h
    exact ⟨(ordered_iff hx hy).mp h.first, (ordered_iff hy hz).mp h.second, (ordered_iff hx hz).mp h.third⟩
  · rintro ⟨hxy, hyz, hxz⟩
    refine ⟨(ordered_iff hx hy).mpr hxy, (ordered_iff hy hz).mpr hyz, (ordered_iff hx hz).mpr hxz,
      fun v w hv hw => ?_,
      fun u v w hu hv hw hle hle' => ?_, fun size mem' a b ha hb v w hv hw => ?_⟩
    · rw [hv.value hx hy, hw.value hy hx, compared_swap, Int.sign_neg]
    · rw [hu.value hx hy, compared_nonpos_iff hx.no_nul hy.no_nul hxy] at hle
      rw [hv.value hy hz, compared_nonpos_iff hy.no_nul hz.no_nul hyz] at hle'
      rw [hw.value hx hz, compared_nonpos_iff hx.no_nul hz.no_nul hxz]
      exact List.le_trans hle hle'
    · rw [hv.value hx hy, hw.value ha hb]

def twoStrings : Bytes := image [0x80#8, 0#8, 0x41#8, 0#8]

theorem twoStrings_high : IsCString twoStrings 0#32 [0x80#8] := ⟨by decide, by decide⟩

theorem twoStrings_low : IsCString twoStrings 2#32 [0x41#8] := ⟨by decide, by decide⟩

theorem strcmp_lexicographic_two : Lexicographic twoStrings 0#32 2#32 0#32 [0x80#8] [0x41#8] [0x80#8] :=
  (strcmp_lexicographic_iff twoStrings_high twoStrings_low twoStrings_high).2.2.2.mpr
    ⟨Or.inr ⟨[], 0x80#8, 0x41#8, [], [], rfl, rfl, by decide⟩,
    Or.inr ⟨[], 0x41#8, 0x80#8, [], [], rfl, rfl, by decide⟩,
      Or.inl rfl⟩

theorem not_strcmp_lexicographic : ¬ ∀ (mem : Bytes) (p q r : Word) (x y z : List Byte), IsCString mem p x →
    IsCString mem q y →
    IsCString mem r z → Lexicographic mem p q r x y z := by
  intro h
  have hempty : IsCString twoStrings 1#32 [] := ⟨by decide, by decide⟩
  have hordered := (h _ _ _ _ _ _ _ hempty twoStrings_low twoStrings_low).first
  rcases (ordered_iff hempty twoStrings_low).mp hordered with he | ho
  · cases he
  · exact not_opposed_nil_left ho

end Cezos.Strings
