import Cezos.Arch64.Count
import Cezos.Lib.LongDivision

namespace Cezos.Arch64

open Lib

variable {σ : Type} {a b x y : BitVec 64} {k n : ℕ}

/-! ### Unsigned division -/

structure LongDivision where
  rem : BitVec 64
  a : BitVec 64
  wrap : BitVec 64

/-- The body of the loop; `wrap` is all ones where the divisor goes into `rem`, and enters the quotient one turn
later. -/
def divideStep (b : BitVec 64) (s : LongDivision) : LongDivision :=
  let rem := (s.rem <<< 1) ||| (s.a >>> 63)
  let a := (s.a <<< 1) ||| (s.wrap &&& 1#64)
  let wrap := (b - rem - 1#64).sshiftRight 63
  ⟨rem - (b &&& wrap), a, wrap⟩

def divideLoop (b : BitVec 64) : ℕ → LongDivision → LongDivision
  | 0, s => s
  | bits + 1, s => divideLoop b bits (divideStep b s)

def longDivision (a b : BitVec 64) : Prog σ (BitVec 64 × BitVec 64) := do
  let bits : Byte := BitVec.ofInt 8 ((clzdi2 b : Int) - clzdi2 a + 1)
  let n ← shiftCount 64 (bits.signExtend 32)
  let m ← shiftCount 64 (64#32 - bits.signExtend 32)
  let s := divideLoop b bits.toInt.toNat ⟨a >>> n, a <<< m, 0#64⟩
  return ((s.a <<< 1) ||| (s.wrap &&& 1#64), s.rem)

/-- The quotient, and what is stored at `c` where that is not NULL. A division by zero is the processor's to
report. -/
def divmoddi4 (a b : BitVec 64) : Prog σ (BitVec 64 × BitVec 64) :=
  if a < b then return (0#64, a)
  else if hi b = 0#32 then
    if b = 0#64 then Prog.fault
    else if b = 1#64 then return (a, 0#64)
    else if hi a = 0#32 then return ((lo a / lo b).setWidth 64, (lo a % lo b).setWidth 64)
    else longDivision a b
  else longDivision a b

def udivdi3 (a b : BitVec 64) : Prog σ (BitVec 64) := do
  let r ← divmoddi4 a b
  return r.1

def umoddi3 (a b : BitVec 64) : Prog σ (BitVec 64) := do
  let r ← divmoddi4 a b
  return r.2

/-- What `k` turns before its end the loop has divided: the quotient's digits are in `a`, but for the last, and what
is
left of the numerator `n` stands above them. -/
structure Dividing (n b : ℕ) (k : ℕ) (s : LongDivision) (q : ℕ) : Prop where
  divided : Divided 2 n b k (2 * q + (s.wrap &&& 1#64).toNat) s.rem.toNat
  a : s.a.toNat = n % 2 ^ k * 2 ^ (64 - k) + q
  room : q < 2 ^ (63 - k)

theorem toNat_shift_or (hy : y.toNat < 2) : ((x <<< 1) ||| y).toNat = 2 * (x.toNat % 2 ^ 63) + y.toNat := by
  have hshift : (x <<< 1).toNat = 2 ^ 1 * (x.toNat % 2 ^ 63) := by
    rw [BitVec.toNat_shiftLeft, Nat.shiftLeft_eq]
    omega
  rw [BitVec.toNat_or, hshift, ← Nat.two_pow_add_eq_or_of_lt hy]

theorem toNat_low_bit (x : BitVec 64) : (x &&& 1#64).toNat = x.toNat % 2 := by
  rw [BitVec.toNat_and]
  exact Nat.and_two_pow_sub_one_eq_mod x.toNat 1

theorem sign_fill (x : BitVec 64) : x.sshiftRight 63 = if x.msb then BitVec.allOnes 64 else 0#64 := by
  ext i hi
  have hbit : (x.sshiftRight 63)[i] = x.msb := by
    rw [BitVec.getElem_sshiftRight]
    split
    · obtain rfl : i = 0 := by omega
      rw [BitVec.msb_eq_getLsbD_last, BitVec.getLsbD_eq_getElem (by decide)]
    · rfl
  rw [hbit]
  cases x.msb
  · exact (BitVec.getElem_zero hi).symm
  · exact (BitVec.getElem_allOnes i hi).symm

/-- The sign of `b - rem - 1` tells whether the divisor goes in, as long as the two are less than half of the range
apart. -/
theorem wrap_eq {rem : BitVec 64} (hlt : rem < b → b.toNat - rem.toNat ≤ 2 ^ 63)
    (hle : b ≤ rem → rem.toNat - b.toNat < 2 ^ 63) :
    (b - rem - 1#64).sshiftRight 63 = if b ≤ rem then BitVec.allOnes 64 else 0#64 := by
  have hmsb : (b - rem - 1#64).msb = decide (b ≤ rem) := by
    have hb := b.isLt
    have hr := rem.isLt
    rw [BitVec.lt_def] at hlt
    rw [BitVec.le_def] at hle
    rw [BitVec.msb_eq_decide, BitVec.toNat_sub, BitVec.toNat_sub, decide_eq_decide, BitVec.le_def]
    change 9223372036854775808 ≤ _ ↔ _
    simp only [BitVec.toNat_ofNat, Nat.reducePow, Nat.reduceMod]
    omega
  rw [sign_fill, hmsb]
  simp only [decide_eq_true_eq]

namespace Dividing

variable {s : LongDivision} {q : ℕ}

theorem wrap_lt (s : LongDivision) : (s.wrap &&& 1#64).toNat < 2 := by
  rw [toNat_low_bit]
  exact Nat.mod_lt _ (by decide)

theorem split (hk : k < 63) (h : Dividing a.toNat b.toNat (k + 1) s q) :
    s.a.toNat = 2 ^ 63 * (a.toNat / 2 ^ k % 2) + (a.toNat % 2 ^ k * 2 ^ (63 - k) + q) ∧
      a.toNat % 2 ^ k * 2 ^ (63 - k) + q < 2 ^ 63 := by
  have hpow : 2 ^ k * 2 ^ (63 - k) = 2 ^ 63 := by rw [← Nat.pow_add]; congr 1; omega
  have hhalf : 2 ^ (63 - k) = 2 * 2 ^ (63 - (k + 1)) := by rw [← Nat.pow_succ']; congr 1; omega
  have hroom := h.room
  constructor
  · have hdigit : a.toNat % 2 ^ (k + 1) = a.toNat / 2 ^ k % 2 * 2 ^ k + a.toNat % 2 ^ k := by
      rw [Nat.pow_succ, Nat.mod_mul, Nat.mul_comm, Nat.add_comm]
    rw [h.a, show 64 - (k + 1) = 63 - k by omega, hdigit, Nat.add_mul, Nat.mul_assoc, hpow,
      Nat.mul_comm (2 ^ 63), Nat.add_assoc]
  · have hmod : a.toNat % 2 ^ k + 1 ≤ 2 ^ k := Nat.mod_lt _ (Nat.two_pow_pos k)
    have hmul := Nat.mul_le_mul_right (2 ^ (63 - k)) hmod
    rw [hpow, Nat.add_mul, Nat.one_mul] at hmul
    omega

theorem shifted (hk : k < 63) (h : Dividing a.toNat b.toNat (k + 1) s q) :
    ((s.a <<< 1) ||| (s.wrap &&& 1#64)).toNat =
    a.toNat % 2 ^ k * 2 ^ (64 - k) + (2 * q + (s.wrap &&& 1#64).toNat) := by
  have hdouble : 2 ^ (64 - k) = 2 * 2 ^ (63 - k) := by rw [← Nat.pow_succ']; congr 1; omega
  obtain ⟨hsplit, hrest⟩ := h.split hk
  rw [toNat_shift_or (wrap_lt s), hsplit, Nat.mul_add_mod, Nat.mod_eq_of_lt hrest, hdouble, Nat.mul_add,
    Nat.mul_left_comm, Nat.add_assoc]

theorem bring_down (hk : k < 63) (h : Dividing a.toNat b.toNat (k + 1) s q) :
    ((s.rem <<< 1) ||| (s.a >>> 63)).toNat = 2 * s.rem.toNat + a.toNat / 2 ^ k % 2 ∧
      2 * s.rem.toNat + a.toNat / 2 ^ k % 2 ≤ a.toNat / 2 ^ k := by
  obtain ⟨hsplit, hrest⟩ := h.split hk
  have htop : (s.a >>> 63).toNat = a.toNat / 2 ^ k % 2 := by
    rw [BitVec.toNat_ushiftRight, Nat.shiftRight_eq_div_pow, hsplit, Nat.mul_add_div (by decide),
      Nat.div_eq_of_lt hrest, Nat.add_zero]
  have hnext : a.toNat / 2 ^ k = 2 * (a.toNat / 2 ^ (k + 1)) + a.toNat / 2 ^ k % 2 := Divided.next_digit
  have hle : a.toNat / 2 ^ k ≤ a.toNat := Nat.div_le_self _ _
  have hlt := a.isLt
  have hfit : s.rem.toNat ≤ a.toNat / 2 ^ (k + 1) := by
    rw [h.divided.eq]
    exact Nat.le_add_left _ _
  rw [toNat_shift_or (by rw [htop]; exact Nat.mod_lt _ (by decide)), htop]
  omega

theorem big (hbig : 2 ^ 63 < b.toNat) (h : Dividing a.toNat b.toNat 1 s q) :
    2 * s.rem.toNat + a.toNat / 2 ^ 0 % 2 = a.toNat := by
  have heq := h.divided.eq
  have hlt := a.isLt
  have hzero : 2 * q + (s.wrap &&& 1#64).toNat = 0 := by
    by_contra hpos
    have hle := Nat.le_mul_of_pos_left b.toNat (Nat.pos_of_ne_zero hpos)
    omega
  rw [hzero] at heq
  omega

theorem step (hk : k < 63) (hb : b ≤ a) (hbig : 2 ^ 63 < b.toNat → k = 0)
    (h : Dividing a.toNat b.toNat (k + 1) s q) :
    Dividing a.toNat b.toNat k (divideStep b s) (2 * q + (s.wrap &&& 1#64).toNat) := by
  have hshifted := h.shifted hk
  have hroom : 2 * q + (s.wrap &&& 1#64).toNat < 2 ^ (63 - k) := by
    have hhalf : 2 ^ (63 - k) = 2 * 2 ^ (63 - (k + 1)) := by rw [← Nat.pow_succ']; congr 1; omega
    have hq := h.room
    have hw := wrap_lt s
    omega
  obtain ⟨hrem, hfit⟩ := h.bring_down hk
  have hle : a.toNat / 2 ^ k ≤ a.toNat := Nat.div_le_self _ _
  have hlt := a.isLt
  have hless := h.divided.lt
  have hone : 2 ^ 63 < b.toNat → a.toNat ≤ 2 * s.rem.toNat + a.toNat / 2 ^ k % 2 := by
    intro hhigh
    obtain rfl := hbig hhigh
    exact Nat.le_of_eq (h.big hhigh).symm
  rw [BitVec.le_def] at hb
  unfold divideStep
  dsimp only
  generalize (s.rem <<< 1) ||| (s.a >>> 63) = r at hrem
  have hwrap := @wrap_eq b r (fun hr => by rw [BitVec.lt_def] at hr; omega)
    (fun hr => by rw [BitVec.le_def] at hr; omega)
  rw [hwrap]
  by_cases hgoes : b ≤ r
  · have hsub : (r - b).toNat = r.toNat - b.toNat := BitVec.toNat_sub_of_le hgoes
    rw [if_pos hgoes, BitVec.and_allOnes]
    rw [BitVec.le_def] at hgoes
    have hnext : Divided 2 a.toNat b.toNat k (2 * (2 * q + (s.wrap &&& 1#64).toNat) + 1) (r - b).toNat :=
      h.divided.step (by omega) (by omega)
    have hbit : (BitVec.allOnes 64 &&& 1#64).toNat = 1 := by decide
    refine ⟨?_, hshifted, hroom⟩
    dsimp only
    rwa [hbit]
  · rw [if_neg hgoes, BitVec.and_zero, BitVec.sub_zero]
    rw [BitVec.le_def] at hgoes
    have hnext : Divided 2 a.toNat b.toNat k (2 * (2 * q + (s.wrap &&& 1#64).toNat) + 0) r.toNat :=
      h.divided.step (by omega) (by omega)
    have hbit : (0#64 &&& 1#64).toNat = 0 := by decide
    refine ⟨?_, hshifted, hroom⟩
    dsimp only
    rwa [hbit]

theorem run (hk : k < 64) (hb : b ≤ a) (hbig : 2 ^ 63 < b.toNat → k ≤ 1) (h : Dividing a.toNat b.toNat k s q) :
    ∃ q', Dividing a.toNat b.toNat 0 (divideLoop b k s) q' := by
  induction k generalizing s q with
  | zero => exact ⟨q, h⟩
  | succ k ih =>
      exact ih (by omega) (fun hhigh => by have := hbig hhigh; omega)
        (h.step (by omega) hb (fun hhigh => by have := hbig hhigh; omega))

theorem done (h : Dividing a.toNat b.toNat 0 s q) : (s.a <<< 1) ||| (s.wrap &&& 1#64) = a / b ∧ s.rem = a % b := by
  constructor
  · apply BitVec.eq_of_toNat_eq
    have ha := h.a
    have hroom := h.room
    rw [Nat.pow_zero, Nat.mod_one, Nat.zero_mul, Nat.zero_add] at ha
    rw [toNat_shift_or (wrap_lt s), ha, Nat.mod_eq_of_lt hroom, BitVec.toNat_udiv]
    exact h.divided.quotient
  · apply BitVec.eq_of_toNat_eq
    rw [BitVec.toNat_umod]
    exact h.divided.remainder

end Dividing

theorem clzdi2_bounds (ha : a ≠ 0#64) : clzdi2 a < 64 ∧ 2 ^ (63 - clzdi2 a) ≤ a.toNat ∧
    a.toNat < 2 ^ (64 - clzdi2 a) := by
  obtain ⟨hset, hclear⟩ := clzdi2_first ha
  have hbit : clzdi2 a < 64 ∧ a.getLsbD (63 - clzdi2 a) = true := by
    rw [BitVec.getMsbD, Bool.and_eq_true, decide_eq_true_eq] at hset
    exact hset
  refine ⟨hbit.1, Nat.ge_two_pow_of_testBit hbit.2, Nat.lt_pow_two_of_testBit _ fun i hi => ?_⟩
  by_cases hlt : i < 64
  · have hoff := hclear (63 - i) (by omega)
    rw [BitVec.getMsbD, show 64 - 1 - (63 - i) = i by omega, decide_eq_true (by omega), Bool.true_and] at hoff
    exact hoff
  · exact a.getLsbD_of_ge i (by omega)

theorem turns_eq (hk : k < 64) : (BitVec.ofNat 8 k : Byte).signExtend 32 = BitVec.ofNat 32 k ∧
    (BitVec.ofNat 8 k : Byte).toInt.toNat = k := by
  have hall : ∀ k < 64, (BitVec.ofNat 8 k : Byte).signExtend 32 = BitVec.ofNat 32 k ∧
    (BitVec.ofNat 8 k : Byte).toInt.toNat = k := by
    decide
  exact hall k hk

theorem Dividing.start (hk : k ≤ 64) (h : a.toNat / 2 ^ k < b.toNat) :
    Dividing a.toNat b.toNat k ⟨a >>> k, a <<< (64 - k), 0#64⟩ 0 := by
  refine ⟨?_, ?_, Nat.two_pow_pos _⟩
  · dsimp only
    rw [BitVec.toNat_ushiftRight, Nat.shiftRight_eq_div_pow]
    exact .start h
  · have hpow : 2 ^ 64 = 2 ^ k * 2 ^ (64 - k) := by rw [← Nat.pow_add]; congr 1; omega
    dsimp only
    rw [BitVec.toNat_shiftLeft, Nat.shiftLeft_eq, hpow, Nat.mul_mod_mul_right, Nat.add_zero]

theorem turns_exists (hb : 2 ≤ b.toNat) (hle : b ≤ a) : ∃ k : ℕ, (clzdi2 b : Int) - clzdi2 a + 1 = k ∧ 0 < k ∧
    k < 64 ∧
    a.toNat / 2 ^ k < b.toNat ∧ (2 ^ 63 < b.toNat → k ≤ 1) := by
  rw [BitVec.le_def] at hle
  obtain ⟨hblt, hblow, hbhigh⟩ := @clzdi2_bounds b (by rintro rfl; exact absurd hb (by decide))
  obtain ⟨halt, halow, hahigh⟩ := @clzdi2_bounds a (by rintro rfl; exact absurd (Nat.le_trans hb hle) (by decide))
  have hca : clzdi2 a ≤ clzdi2 b := by
    have hpow := (Nat.pow_lt_pow_iff_right (show 1 < 2 by decide)).mp
      (Nat.lt_of_le_of_lt hblow (Nat.lt_of_le_of_lt hle hahigh))
    omega
  have hcb : clzdi2 b ≤ 62 := by
    have hpow := (Nat.pow_lt_pow_iff_right (show 1 < 2 by decide)).mp (show 2 ^ 1 < 2 ^ (64 - clzdi2 b) by omega)
    omega
  refine ⟨clzdi2 b - clzdi2 a + 1, by omega, by omega, by omega, ?_, fun hbig => ?_⟩
  · apply Nat.lt_of_lt_of_le _ hblow
    apply Nat.div_lt_of_lt_mul
    rwa [← Nat.pow_add, show clzdi2 b - clzdi2 a + 1 + (63 - clzdi2 b) = 64 - clzdi2 a by omega]
  · have hpow := (Nat.pow_lt_pow_iff_right (show 1 < 2 by decide)).mp (Nat.lt_trans hbig hbhigh)
    omega

theorem longDivision_eq (hb : 2 ≤ b.toNat) (hle : b ≤ a) : (longDivision a b : Prog σ _) = pure (a / b, a % b) := by
  obtain ⟨k, hk, hpos, hlt, hstart, hbig⟩ := turns_exists hb hle
  obtain ⟨hext, hturns⟩ := turns_eq hlt
  have hm : (64#32 - BitVec.ofNat 32 k).toNat = 64 - k := by
    rw [BitVec.toNat_sub]
    simp only [BitVec.toNat_ofNat]
    omega
  have hn : (BitVec.ofNat 32 k).toNat = k := by
    rw [BitVec.toNat_ofNat]
    omega
  obtain ⟨q, hdone⟩ := (Dividing.start (Nat.le_of_lt hlt) hstart).run hlt hle hbig
  unfold longDivision
  rw [hk, BitVec.ofInt_natCast]
  dsimp only
  rw [hext, hturns, shiftCount_eq (by omega) (by decide), Prog.pure_bind, shiftCount_eq (by omega) (by decide),
    Prog.pure_bind, hn, hm,
    hdone.done.1, hdone.done.2]

theorem hi_eq_zero_iff : hi a = 0#32 ↔ a.toNat < 4294967296 := by
  have ha := a.isLt
  have hhi : (hi a).toNat = a.toNat / 4294967296 := by
    unfold hi
    rw [BitVec.extractLsb'_toNat, Nat.shiftRight_eq_div_pow]
    omega
  rw [← BitVec.toNat_inj, hhi]
  change _ = 0 ↔ _
  omega

theorem toNat_lo (h : hi a = 0#32) : (lo a).toNat = a.toNat := by
  rw [hi_eq_zero_iff] at h
  unfold lo
  rw [BitVec.extractLsb'_toNat]
  exact Nat.mod_eq_of_lt h

theorem divmoddi4_eq (hb : b ≠ 0#64) : (divmoddi4 a b : Prog σ _) = pure (a / b, a % b) := by
  have hpos : 0 < b.toNat := Nat.pos_of_ne_zero fun hz => hb (BitVec.eq_of_toNat_eq hz)
  unfold divmoddi4
  by_cases hlt : a < b
  · have hlt' := BitVec.lt_def.mp hlt
    have hdiv : a / b = 0#64 := BitVec.eq_of_toNat_eq (by rw [BitVec.toNat_udiv]; exact Nat.div_eq_of_lt hlt')
    have hmod : a % b = a := BitVec.eq_of_toNat_eq (by rw [BitVec.toNat_umod]; exact Nat.mod_eq_of_lt hlt')
    rw [if_pos hlt, hdiv, hmod]
  · have hle : b ≤ a := by
      rw [BitVec.le_def]
      rw [BitVec.lt_def] at hlt
      omega
    rw [if_neg hlt]
    by_cases hhi : hi b = 0#32
    · rw [if_pos hhi, if_neg hb]
      by_cases hone : b = 1#64
      · rw [if_pos hone, hone, BitVec.udiv_one, BitVec.umod_one]
      · have htwo : 2 ≤ b.toNat := by
          have hne : b.toNat ≠ 1 := fun h => hone (BitVec.eq_of_toNat_eq h)
          omega
        rw [if_neg hone]
        by_cases hha : hi a = 0#32
        · have hla := toNat_lo hha
          have hlb := toNat_lo hhi
          have hasmall := hi_eq_zero_iff.mp hha
          rw [if_pos hha]
          congr 2
          · apply BitVec.eq_of_toNat_eq
            rw [BitVec.toNat_setWidth, BitVec.toNat_udiv, BitVec.toNat_udiv, hla, hlb]
            have hq := Nat.div_le_self a.toNat b.toNat
            exact Nat.mod_eq_of_lt (by omega)
          · apply BitVec.eq_of_toNat_eq
            rw [BitVec.toNat_setWidth, BitVec.toNat_umod, BitVec.toNat_umod, hla, hlb]
            have hr := Nat.mod_le a.toNat b.toNat
            exact Nat.mod_eq_of_lt (by omega)
        · rw [if_neg hha]
          exact longDivision_eq htwo hle
    · rw [if_neg hhi]
      have hbig := (not_congr hi_eq_zero_iff).mp hhi
      exact longDivision_eq (by omega) hle

theorem divmoddi4_zero : (divmoddi4 a 0#64 : Prog σ _) = Prog.fault := by
  unfold divmoddi4
  rw [if_neg BitVec.not_lt_zero, if_pos (by decide), if_pos rfl]

theorem udivdi3_eq (hb : b ≠ 0#64) : (udivdi3 a b : Prog σ _) = pure (a / b) := by
  rw [udivdi3, divmoddi4_eq hb]
  exact Prog.pure_bind

theorem umoddi3_eq (hb : b ≠ 0#64) : (umoddi3 a b : Prog σ _) = pure (a % b) := by
  rw [umoddi3, divmoddi4_eq hb]
  exact Prog.pure_bind

theorem unsigned_division (a b : BitVec 64) : (b ≠ 0#64 →
      (udivdi3 a b : Prog σ _) = pure (a / b) ∧ (umoddi3 a b : Prog σ _) = pure (a % b)) ∧
    (b = 0#64 → (udivdi3 a b : Prog σ _) = Prog.fault ∧ (umoddi3 a b : Prog σ _) = Prog.fault) := by
  refine ⟨fun hb => ⟨udivdi3_eq hb, umoddi3_eq hb⟩, ?_⟩
  rintro rfl
  rw [udivdi3, umoddi3, divmoddi4_zero]
  exact ⟨rfl, rfl⟩

theorem unsigned_division_seven : (udivdi3 0x8000000000000000#64 7#64 : Prog Unit _) = pure 0x1249249249249249#64 ∧
    (umoddi3 5#64 0#64 : Prog Unit _) = Prog.fault := by
  obtain ⟨hdivide, _⟩ := @unsigned_division Unit 0x8000000000000000#64 7#64
  obtain ⟨_, hzero⟩ := @unsigned_division Unit 5#64 0#64
  exact ⟨(hdivide (by decide)).1, (hzero rfl).2⟩

/-! ### Signed division -/

def flipMask (b : BitVec 64) : BitVec 64 := if 0 ≤ b.toInt then 0#64 else BitVec.allOnes 64

def isNegative (b : BitVec 64) : BitVec 64 := if b.toInt < 0 then 1#64 else 0#64

def arith64Neg (a b : BitVec 64) : BitVec 64 := (a ^^^ flipMask b) + isNegative b

/-- `arith64_neg(a, a)`, where the sum is one of signed words. -/
def arith64Abs (a : BitVec 64) : Prog σ (BitVec 64) := signedAdd (a ^^^ flipMask a) (isNegative a)

def absvdi2 (a : BitVec 64) : Prog σ (BitVec 64) := arith64Abs a

def divdi3 (a b : BitVec 64) : Prog σ (BitVec 64) := do
  let x ← arith64Abs a
  let y ← arith64Abs b
  let r ← divmoddi4 x y
  return arith64Neg r.1 (a ^^^ b)

def moddi3 (a b : BitVec 64) : Prog σ (BitVec 64) := do
  let x ← arith64Abs a
  let y ← arith64Abs b
  let r ← divmoddi4 x y
  return arith64Neg r.2 a

variable {st : Bool} {s s' : σ} {r : BitVec 64}

theorem sign_cases (b : BitVec 64) : (b.msb = false ∧ flipMask b = 0#64 ∧ isNegative b = 0#64) ∨
    (b.msb = true ∧ flipMask b = BitVec.allOnes 64 ∧ isNegative b = 1#64) := by
  have hmsb := @BitVec.msb_eq_toInt 64 b
  unfold flipMask isNegative
  by_cases hneg : b.toInt < 0
  · rw [if_neg (by omega), if_pos hneg]
    exact Or.inr ⟨hmsb.trans (decide_eq_true hneg), rfl, rfl⟩
  · rw [if_pos (by omega), if_neg hneg]
    exact Or.inl ⟨hmsb.trans (decide_eq_false hneg), rfl, rfl⟩

theorem arith64Neg_eq (a b : BitVec 64) : arith64Neg a b = if b.msb then -a else a := by
  rw [arith64Neg]
  rcases sign_cases b with ⟨hb, hmask, hone⟩ | ⟨hb, hmask, hone⟩
  · rw [hb, hmask, hone, BitVec.xor_zero, BitVec.add_zero]
    rfl
  · rw [hb, hmask, hone, BitVec.xor_allOnes]
    exact (BitVec.neg_eq_not_add a).symm

theorem abs_fits_iff (a : BitVec 64) : (arith64Neg a a).toInt = (a ^^^ flipMask a).toInt + (isNegative a).toInt ↔
    a ≠ BitVec.intMin 64 := by
  rw [arith64Neg_eq]
  rcases sign_cases a with ⟨ha, hmask, hone⟩ | ⟨ha, hmask, hone⟩
  · rw [ha, hmask, hone, BitVec.xor_zero]
    refine iff_of_true (Int.add_zero _).symm ?_
    rintro rfl
    exact absurd ha (by decide)
  · rw [ha, hmask, hone, BitVec.xor_allOnes]
    constructor
    · rintro h rfl
      exact absurd h (by decide)
    · intro hne
      have hnot : (~~~a).toInt = -a.toInt - 1 := by
        have hlt := a.isLt
        rw [BitVec.toInt_eq_toNat_cond, BitVec.toInt_eq_toNat_cond, BitVec.toNat_not]
        split <;> split <;> omega
      rw [if_pos rfl, BitVec.toInt_neg_of_ne_intMin hne, hnot]
      exact (Int.sub_add_cancel _ _).symm

theorem absvdi2_returns : Returns st (absvdi2 a) s r s' ↔ (r = a.abs ∧ s' = s) ∧
    (st = true → a ≠ BitVec.intMin 64) := by
  have habs : a.abs = arith64Neg a a := (arith64Neg_eq a a).symm
  rw [habs, ← abs_fits_iff]
  exact returns_signed

theorem magnitudes_returns {f : BitVec 64 × BitVec 64 → BitVec 64} (hb : b ≠ 0#64) : Returns st (do
      let x ← arith64Abs a
      let y ← arith64Abs b
      let r ← divmoddi4 x y
      return f r) s r s' ↔
    (r = f (a.abs / b.abs, a.abs % b.abs) ∧ s' = s) ∧ (st = true → a ≠ BitVec.intMin 64 ∧ b ≠ BitVec.intMin 64) := by
  have hne : b.abs ≠ 0#64 := by
    intro hz
    rw [BitVec.abs] at hz
    split at hz
    · exact hb (BitVec.neg_eq_zero_iff.mp hz)
    · exact hb hz
  constructor
  · intro h
    obtain ⟨x, s₁, hx, hrest⟩ := returns_bind.mp h
    obtain ⟨y, s₂, hy, hlast⟩ := returns_bind.mp hrest
    obtain ⟨⟨rfl, rfl⟩, ha⟩ := absvdi2_returns.mp hx
    obtain ⟨⟨rfl, rfl⟩, hb'⟩ := absvdi2_returns.mp hy
    rw [divmoddi4_eq hne, Prog.pure_bind] at hlast
    exact ⟨returns_pure.mp hlast, fun hs => ⟨ha hs, hb' hs⟩⟩
  · rintro ⟨⟨rfl, rfl⟩, hclean⟩
    refine returns_bind.mpr ⟨_, s', absvdi2_returns.mpr ⟨⟨rfl, rfl⟩, fun hs => (hclean hs).1⟩, ?_⟩
    refine returns_bind.mpr ⟨_, s', absvdi2_returns.mpr ⟨⟨rfl, rfl⟩, fun hs => (hclean hs).2⟩, ?_⟩
    rw [divmoddi4_eq hne, Prog.pure_bind]
    exact returns_pure.mpr ⟨rfl, rfl⟩

theorem sdiv_eq_abs (a b : BitVec 64) : a.sdiv b = arith64Neg (a.abs / b.abs) (a ^^^ b) := by
  rw [arith64Neg_eq, BitVec.msb_xor, BitVec.sdiv_eq, BitVec.abs, BitVec.abs]
  cases a.msb <;> cases b.msb <;> rfl

theorem srem_eq_abs (a b : BitVec 64) : a.srem b = arith64Neg (a.abs % b.abs) a := by
  rw [arith64Neg_eq, BitVec.srem_eq, BitVec.abs, BitVec.abs]
  cases a.msb <;> cases b.msb <;> rfl

theorem signed_division (hb : b ≠ 0#64) :
    (Returns st (divdi3 a b) s r s' ↔ (r = a.sdiv b ∧ s' = s) ∧
    (st = true → a ≠ BitVec.intMin 64 ∧ b ≠ BitVec.intMin 64)) ∧
    (Returns st (moddi3 a b) s r s' ↔ (r = a.srem b ∧ s' = s) ∧
    (st = true → a ≠ BitVec.intMin 64 ∧ b ≠ BitVec.intMin 64)) := by
  rw [sdiv_eq_abs, srem_eq_abs]
  exact ⟨magnitudes_returns hb, magnitudes_returns hb⟩

theorem signed_division_minus_seven : Returns true (divdi3 (-7#64) 2#64) () (-3#64) () ∧
    Returns true (moddi3 (-7#64) 2#64) () (-1#64) () := by
  obtain ⟨hdivide, _⟩ := @signed_division Unit (-7#64) 2#64 true () () (-3#64) (by decide)
  obtain ⟨_, hmodulo⟩ := @signed_division Unit (-7#64) 2#64 true () () (-1#64) (by decide)
  exact ⟨hdivide.mpr ⟨⟨by decide, rfl⟩, fun _ => by decide⟩, hmodulo.mpr ⟨⟨by decide, rfl⟩, fun _ => by decide⟩⟩

end Cezos.Arch64
