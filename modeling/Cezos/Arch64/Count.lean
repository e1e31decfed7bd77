import Cezos.Lib.FirstSet
import Cezos.Lib.Lanes
import Cezos.Arch64.Words

namespace Cezos.Arch64

open Lib

variable {w k m : ℕ} {ds : List ℕ} {a mask : BitVec w} {bit₀ : ℕ → Bool} {s : ℕ × BitVec w}

def missing (a mask : BitVec w) (k : ℕ) : ℕ := if a &&& mask = 0#w then 2 ^ k else 0

def clzStep (mask : BitVec w) (k : ℕ) (s : ℕ × BitVec w) : ℕ × BitVec w :=
  (s.1 + missing s.2 mask k, s.2 <<< missing s.2 mask k)

def ctzStep (mask : BitVec w) (k : ℕ) (s : ℕ × BitVec w) : ℕ × BitVec w :=
  (s.1 + missing s.2 mask k, s.2 >>> missing s.2 mask k)

def clzsi2 (a : BitVec 32) : ℕ :=
  let s := clzStep 0xFFFF0000#32 4 (0, a)
  let s := clzStep 0xFF000000#32 3 s
  let s := clzStep 0xF0000000#32 2 s
  let s := clzStep 0xC0000000#32 1 s
  s.1 + missing s.2 0x80000000#32 0

def clzdi2 (a : BitVec 64) : ℕ :=
  let s := clzStep 0xFFFFFFFF00000000#64 5 (0, a)
  let s := clzStep 0xFFFF000000000000#64 4 s
  let s := clzStep 0xFF00000000000000#64 3 s
  let s := clzStep 0xF000000000000000#64 2 s
  let s := clzStep 0xC000000000000000#64 1 s
  s.1 + missing s.2 0x8000000000000000#64 0

def ctzsi2 (a : BitVec 32) : ℕ :=
  let s := ctzStep 0x0000FFFF#32 4 (0, a)
  let s := ctzStep 0x000000FF#32 3 s
  let s := ctzStep 0x0000000F#32 2 s
  let s := ctzStep 0x00000003#32 1 s
  s.1 + missing s.2 0x00000001#32 0

def ctzdi2 (a : BitVec 64) : ℕ :=
  let s := ctzStep 0x00000000FFFFFFFF#64 5 (0, a)
  let s := ctzStep 0x000000000000FFFF#64 4 s
  let s := ctzStep 0x00000000000000FF#64 3 s
  let s := ctzStep 0x000000000000000F#64 2 s
  let s := ctzStep 0x0000000000000003#64 1 s
  s.1 + missing s.2 0x0000000000000001#64 0

def ffsdi2 (a : BitVec 64) : ℕ := if a ≠ 0#64 then ctzdi2 a + 1 else 0

theorem missing_eq {read : BitVec w → ℕ → Bool} (hand : ∀ x y i, read (x &&& y) i = (read x i && read y i))
    (hzero : ∀ x, x = 0#w ↔ ∀ i < w, read x i = false) (hm : ∀ i < w, read mask i = decide (i < 2 ^ k))
    (hw : 2 ^ k ≤ w) :
    missing a mask k = if ∀ i < 2 ^ k, read a i = false then 2 ^ k else 0 := by
  have hmask : a &&& mask = 0#w ↔ ∀ i < 2 ^ k, read a i = false := by
    rw [hzero]
    constructor
    · intro h i hi
      have hbit := h i (by omega)
      rwa [hand, hm i (by omega), decide_eq_true hi, Bool.and_true] at hbit
    · intro h i hi
      rw [hand, hm i hi]
      by_cases hlt : i < 2 ^ k
      · rw [h i hlt, Bool.false_and]
      · rw [decide_eq_false hlt, Bool.and_false]
  unfold missing
  simp only [hmask]

theorem eq_zero_iff_getLsbD : a = 0#w ↔ ∀ i < w, a.getLsbD i = false := by
  constructor
  · rintro rfl i _
    exact BitVec.getLsbD_zero
  · intro h
    apply BitVec.eq_of_getLsbD_eq
    intro i hi
    rw [h i hi, BitVec.getLsbD_zero]

theorem eq_zero_iff_getMsbD : a = 0#w ↔ ∀ i < w, a.getMsbD i = false := by
  constructor
  · rintro rfl i _
    exact BitVec.getMsbD_zero
  · intro h
    apply BitVec.eq_of_getMsbD_eq
    intro i hi
    rw [h i hi, BitVec.getMsbD_zero]

theorem clzStep_seeks (mask : BitVec w) (k : ℕ) (hm : ∀ i < w, mask.getMsbD i = decide (i < 2 ^ k)) (hw : 2 ^ k ≤ w)
    (h : Seeks bit₀ s.1 s.2.getMsbD (2 ^ (k + 1))) :
    Seeks bit₀ (clzStep mask k s).1 (clzStep mask k s).2.getMsbD (2 ^ k) := by
  rw [Nat.pow_succ, Nat.mul_comm] at h
  apply h.halve
  · exact missing_eq (fun _ _ _ => BitVec.getMsbD_and) (fun _ => eq_zero_iff_getMsbD) hm hw
  · exact fun i => BitVec.getMsbD_shiftLeft _ _

theorem ctzStep_seeks (mask : BitVec w) (k : ℕ) (hm : ∀ i < w, mask.getLsbD i = decide (i < 2 ^ k)) (hw : 2 ^ k ≤ w)
    (h : Seeks bit₀ s.1 s.2.getLsbD (2 ^ (k + 1))) :
    Seeks bit₀ (ctzStep mask k s).1 (ctzStep mask k s).2.getLsbD (2 ^ k) := by
  rw [Nat.pow_succ, Nat.mul_comm] at h
  apply h.halve
  · exact missing_eq (fun _ _ _ => BitVec.getLsbD_and) (fun _ => eq_zero_iff_getLsbD) hm hw
  · intro i
    rw [Nat.add_comm]
    exact BitVec.getLsbD_ushiftRight _ _ _

theorem exists_set {bit : ℕ → Bool} (h : ¬ ∀ i < w, bit i = false) : Seeks bit 0 bit w := by
  by_contra hnone
  refine h fun i hi => ?_
  by_contra hset
  exact hnone (.start (Bool.eq_true_of_not_eq_false hset) hi)

def byteCounts (m₁ m₂ m₄ a : BitVec w) : BitVec w :=
  let a := a - ((a >>> 1) &&& m₁)
  let a := ((a >>> 2) &&& m₂) + (a &&& m₂)
  (a + (a >>> 4)) &&& m₄

def popcountsi2 (a : BitVec 32) : BitVec 32 :=
  let a := byteCounts 0x55555555#32 0x33333333#32 0x0F0F0F0F#32 a
  let a := a + (a >>> 16)
  (a + (a >>> 8)) &&& 63#32

def popcountdi2 (a : BitVec 64) : BitVec 64 :=
  let a := byteCounts 0x5555555555555555#64 0x3333333333333333#64 0x0F0F0F0F0F0F0F0F#64 a
  let a := a + (a >>> 32)
  let a := a + (a >>> 16)
  (a + (a >>> 8)) &&& 127#64

theorem sum_bits (a : BitVec w) : (bits a.toNat w).sum = a.cpop.toNat := by
  have hrec : ∀ n, (bits a.toNat n).sum = a.cpopNatRec n 0 := by
    intro n
    induction n with
    | zero => rfl
    | succ n ih =>
      rw [BitVec.cpopNatRec_succ, BitVec.cpopNatRec_add, ← ih]
      unfold bits
      rw [List.range_succ, List.map_append, List.sum_append]
      simp [BitVec.getLsbD]
  rw [hrec, BitVec.toNat_cpop]

theorem toNat_lanes_lt {l : ℕ} (hl : 0 < l) (h : ∀ d ∈ ds, d < 2 ^ l) (hw : l * ds.length ≤ w) :
    Nat.ofDigits (2 ^ l) ds < 2 ^ w :=
  Nat.lt_of_lt_of_le (ofDigits_lt h hl) (Nat.pow_le_pow_right (by decide) hw)

theorem two_bit_lanes {x mask : BitVec w} (hx : x.toNat = Nat.ofDigits 2 ds) (h : ∀ d ∈ ds, d ≤ 1)
    (hn : ds.length ≤ 2 * k)
    (hm : mask.toNat = laneMask 1 k) : (x - ((x >>> 1) &&& mask)).toNat = Nat.ofDigits 4 (pairs ds) := by
  have hand : ((x >>> 1) &&& mask).toNat = Nat.ofDigits 2 ds / 2 &&& laneMask 1 k := by
    rw [BitVec.toNat_and, BitVec.toNat_ushiftRight, Nat.shiftRight_one, hm, hx]
  have hle : (x >>> 1) &&& mask ≤ x := by
    have hhalf := @Nat.and_le_left (Nat.ofDigits 2 ds / 2) (laneMask 1 k)
    rw [BitVec.le_def, hand, hx]
    omega
  rw [BitVec.toNat_sub_of_le hle, hand, hx, pairs_by_sub h hn]

theorem four_bit_lanes {x mask : BitVec w} (hx : x.toNat = Nat.ofDigits 4 ds) (h : ∀ d ∈ ds, d ≤ 2)
    (hn : ds.length = 2 * k)
    (hw : 4 * k ≤ w) (hm : mask.toNat = laneMask 2 k) :
    (((x >>> 2) &&& mask) + (x &&& mask)).toNat = Nat.ofDigits 16 (pairs ds) := by
  have hlen := length_pairs ds
  have hle := pairs_le h
  have hlt : Nat.ofDigits 16 (pairs ds) < 2 ^ w :=
    @toNat_lanes_lt w _ 4 (by decide) (fun d hd => Nat.lt_of_le_of_lt (hle d hd) (by decide)) (by rw [hlen]; omega)
  have hmasks := @pairs_by_masks 2 k ds (fun d hd => Nat.lt_of_le_of_lt (h d hd) (by decide)) (by omega)
  rw [BitVec.toNat_add, BitVec.toNat_and, BitVec.toNat_and, BitVec.toNat_ushiftRight, Nat.shiftRight_eq_div_pow,
    hm, hx]
  change (Nat.ofDigits 4 ds / 2 ^ 2 &&& laneMask 2 k) + (Nat.ofDigits 4 ds &&& laneMask 2 k) =
    Nat.ofDigits 16 (pairs ds) at hmasks
  rw [hmasks, Nat.mod_eq_of_lt hlt]

theorem eight_bit_lanes {x mask : BitVec w} (hx : x.toNat = Nat.ofDigits 16 ds) (h : ∀ d ∈ ds, d ≤ 4)
    (hn : ds.length = 2 * k)
    (hw : 8 * k ≤ w) (hm : mask.toNat = laneMask 4 k) :
    ((x + (x >>> 4)) &&& mask).toNat = Nat.ofDigits 256 (pairs ds) := by
  have hsmall : ∀ d ∈ ds, 2 * d < 2 ^ 4 := fun d hd => Nat.lt_of_le_of_lt (Nat.mul_le_mul_left 2 (h d hd))
    (by decide)
  have hlt : Nat.ofDigits 16 (neighbours ds) < 2 ^ w :=
    @toNat_lanes_lt w _ 4 (by decide) (neighbours_lt hsmall) (by rw [length_neighbours]; omega)
  have hsum := @add_div_two_pow 4 ds (fun d hd => Nat.lt_of_le_of_lt (h d hd) (by decide))
  have hmask := @pairs_by_mask 4 k ds hsmall (by omega)
  rw [BitVec.toNat_and, BitVec.toNat_add, BitVec.toNat_ushiftRight, Nat.shiftRight_eq_div_pow, hm, hx]
  change Nat.ofDigits 16 ds + Nat.ofDigits 16 ds / 2 ^ 4 = Nat.ofDigits 16 (neighbours ds) at hsum
  rw [hsum, Nat.mod_eq_of_lt hlt]
  exact hmask

theorem byteCounts_lanes {m₁ m₂ m₄ : BitVec w} (hw : w = 8 * k) (h₁ : m₁.toNat = laneMask 1 (4 * k))
    (h₂ : m₂.toNat = laneMask 2 (2 * k)) (h₄ : m₄.toNat = laneMask 4 k) (a : BitVec w) :
    ∃ ds : List ℕ, ds.length = k ∧ (∀ d ∈ ds, d ≤ 8) ∧ ds.sum = a.cpop.toNat ∧
      (byteCounts m₁ m₂ m₄ a).toNat = Nat.ofDigits 256 ds := by
  have hlen := length_bits a.toNat w
  have hlen₂ := length_pairs (bits a.toNat w)
  have hlen₄ := length_pairs (pairs (bits a.toNat w))
  have hlen₈ := length_pairs (pairs (pairs (bits a.toNat w)))
  have hle₁ : ∀ d ∈ bits a.toNat w, d ≤ 1 := bits_le
  have hle₂ := pairs_le hle₁
  have hle₄ := pairs_le hle₂
  refine ⟨pairs (pairs (pairs (bits a.toNat w))), by omega, pairs_le hle₄, ?_, ?_⟩
  · rw [sum_pairs, sum_pairs, sum_pairs, sum_bits]
  · have two := two_bit_lanes (ofDigits_bits a.isLt).symm hle₁ (show _ ≤ 2 * (4 * k) by omega) h₁
    have four := four_bit_lanes two hle₂ (show _ = 2 * (2 * k) by omega) (by omega) h₂
    exact eight_bit_lanes four hle₄ (show _ = 2 * k by omega) (by omega) h₄

theorem fold_bytes {x : BitVec w} {ls us : List ℕ} (hlen : ls.length = us.length) (hw : 8 * us.length ≤ w)
    (hm : m < 128)
    (hls : ∀ d ∈ ls, d ≤ m) (hus : ∀ d ∈ us, d ≤ m)
    (hx : x.toNat % 2 ^ (2 * (8 * us.length)) = Nat.ofDigits 256 (ls ++ us)) :
    (x + x >>> (8 * us.length)).toNat % 2 ^ (8 * us.length) = Nat.ofDigits 256 (List.zipWith (· + ·) ls us) := by
  rw [BitVec.toNat_add, BitVec.toNat_ushiftRight, Nat.shiftRight_eq_div_pow, Nat.mod_mod_of_dvd _
    (Nat.pow_dvd_pow 2 hw)]
  have hsum := zipWith_le hls hus
  exact fold_lanes (by decide) hlen (fun d hd => Nat.lt_of_le_of_lt (hls d hd) (by omega))
    (fun d hd => Nat.lt_of_le_of_lt (hsum d hd) (by omega)) hx

theorem popcountdi2_eq (a : BitVec 64) : popcountdi2 a = a.cpop := by
  obtain ⟨ds, hlen, hle, hsum, hx⟩ := @byteCounts_lanes 64 8 0x5555555555555555#64 0x3333333333333333#64
    0x0F0F0F0F0F0F0F0F#64
    rfl (by decide) (by decide) (by decide) a
  match ds, hlen with
  | [d₀, d₁, d₂, d₃, d₄, d₅, d₆, d₇], _ =>
    unfold popcountdi2
    dsimp only
    generalize byteCounts 0x5555555555555555#64 0x3333333333333333#64 0x0F0F0F0F0F0F0F0F#64 a = x at hx
    have hle₁ : (∀ d ∈ [d₀, d₁, d₂, d₃], d ≤ 8) ∧ ∀ d ∈ [d₄, d₅, d₆, d₇], d ≤ 8 := List.forall_mem_append.mp hle
    have hfour : (x + x >>> 32).toNat % 2 ^ 32 = Nat.ofDigits 256 [d₀ + d₄, d₁ + d₅, d₂ + d₆, d₃ + d₇] :=
      @fold_bytes 64 8 x [d₀, d₁, d₂, d₃] [d₄, d₅, d₆, d₇] rfl (by simp) (by decide) hle₁.1 hle₁.2
        ((Nat.mod_eq_of_lt x.isLt).trans hx)
    generalize x + x >>> 32 = y at hfour
    have hle₂ : (∀ d ∈ [d₀ + d₄, d₁ + d₅], d ≤ 16) ∧ ∀ d ∈ [d₂ + d₆, d₃ + d₇], d ≤ 16 :=
      List.forall_mem_append.mp (zipWith_le hle₁.1 hle₁.2)
    have htwo : (y + y >>> 16).toNat % 2 ^ 16 = Nat.ofDigits 256 [d₀ + d₄ + (d₂ + d₆), d₁ + d₅ + (d₃ + d₇)] :=
      @fold_bytes 64 16 y [d₀ + d₄, d₁ + d₅] [d₂ + d₆, d₃ + d₇] rfl (by simp) (by decide) hle₂.1 hle₂.2 hfour
    generalize y + y >>> 16 = z at htwo
    have hle₄ : (∀ d ∈ [d₀ + d₄ + (d₂ + d₆)], d ≤ 32) ∧ ∀ d ∈ [d₁ + d₅ + (d₃ + d₇)], d ≤ 32 :=
      List.forall_mem_append.mp (zipWith_le hle₂.1 hle₂.2)
    have hone : (z + z >>> 8).toNat % 256 = d₀ + d₄ + (d₂ + d₆) + (d₁ + d₅ + (d₃ + d₇)) :=
      @fold_bytes 64 32 z [d₀ + d₄ + (d₂ + d₆)] [d₁ + d₅ + (d₃ + d₇)] rfl (by simp) (by decide) hle₄.1 hle₄.2 htwo
    have hle₈ : d₀ + d₄ + (d₂ + d₆) + (d₁ + d₅ + (d₃ + d₇)) ≤ 64 := zipWith_le hle₄.1 hle₄.2 _ List.mem_cons_self
    apply BitVec.eq_of_toNat_eq
    rw [BitVec.toNat_and, ← hsum]
    refine (Nat.and_two_pow_sub_one_eq_mod _ 7).trans ?_
    simp only [List.sum_cons, List.sum_nil]
    omega

theorem popcountsi2_eq (a : BitVec 32) : popcountsi2 a = a.cpop := by
  obtain ⟨ds, hlen, hle, hsum, hx⟩ := @byteCounts_lanes 32 4 0x55555555#32 0x33333333#32 0x0F0F0F0F#32 rfl
    (by decide) (by decide)
    (by decide) a
  match ds, hlen with
  | [d₀, d₁, d₂, d₃], _ =>
    unfold popcountsi2
    dsimp only
    generalize byteCounts 0x55555555#32 0x33333333#32 0x0F0F0F0F#32 a = x at hx
    have hle₁ : (∀ d ∈ [d₀, d₁], d ≤ 8) ∧ ∀ d ∈ [d₂, d₃], d ≤ 8 := List.forall_mem_append.mp hle
    have htwo : (x + x >>> 16).toNat % 2 ^ 16 = Nat.ofDigits 256 [d₀ + d₂, d₁ + d₃] :=
      @fold_bytes 32 8 x [d₀, d₁] [d₂, d₃] rfl (by simp) (by decide) hle₁.1 hle₁.2
        ((Nat.mod_eq_of_lt x.isLt).trans hx)
    generalize x + x >>> 16 = y at htwo
    have hle₂ : (∀ d ∈ [d₀ + d₂], d ≤ 16) ∧ ∀ d ∈ [d₁ + d₃], d ≤ 16 :=
      List.forall_mem_append.mp (zipWith_le hle₁.1 hle₁.2)
    have hone : (y + y >>> 8).toNat % 256 = d₀ + d₂ + (d₁ + d₃) :=
      @fold_bytes 32 16 y [d₀ + d₂] [d₁ + d₃] rfl (by simp) (by decide) hle₂.1 hle₂.2 htwo
    have hle₄ : d₀ + d₂ + (d₁ + d₃) ≤ 32 := zipWith_le hle₂.1 hle₂.2 _ List.mem_cons_self
    apply BitVec.eq_of_toNat_eq
    rw [BitVec.toNat_and, ← hsum]
    refine (Nat.and_two_pow_sub_one_eq_mod _ 6).trans ?_
    simp only [List.sum_cons, List.sum_nil]
    omega

theorem popcounts (a : BitVec 64) (b : BitVec 32) : popcountdi2 a = a.cpop ∧ popcountsi2 b = b.cpop :=
  ⟨popcountdi2_eq a, popcountsi2_eq b⟩

theorem clzsi2_first {a : BitVec 32} (ha : a ≠ 0#32) : FirstSet a.getMsbD (clzsi2 a) := by
  have h5 := exists_set ((not_congr eq_zero_iff_getMsbD).mp ha)
  have h4 := @clzStep_seeks _ _ (0, a) 0xFFFF0000#32 4 (by decide) (by decide) h5
  have h3 := clzStep_seeks 0xFF000000#32 3 (by decide) (by decide) h4
  have h2 := clzStep_seeks 0xF0000000#32 2 (by decide) (by decide) h3
  have h1 := clzStep_seeks 0xC0000000#32 1 (by decide) (by decide) h2
  exact (clzStep_seeks 0x80000000#32 0 (by decide) (by decide) h1).found

theorem clzdi2_first {a : BitVec 64} (ha : a ≠ 0#64) : FirstSet a.getMsbD (clzdi2 a) := by
  have h6 := exists_set ((not_congr eq_zero_iff_getMsbD).mp ha)
  have h5 := @clzStep_seeks _ _ (0, a) 0xFFFFFFFF00000000#64 5 (by decide) (by decide) h6
  have h4 := clzStep_seeks 0xFFFF000000000000#64 4 (by decide) (by decide) h5
  have h3 := clzStep_seeks 0xFF00000000000000#64 3 (by decide) (by decide) h4
  have h2 := clzStep_seeks 0xF000000000000000#64 2 (by decide) (by decide) h3
  have h1 := clzStep_seeks 0xC000000000000000#64 1 (by decide) (by decide) h2
  exact (clzStep_seeks 0x8000000000000000#64 0 (by decide) (by decide) h1).found

theorem ctzsi2_first {a : BitVec 32} (ha : a ≠ 0#32) : FirstSet a.getLsbD (ctzsi2 a) := by
  have h5 := exists_set ((not_congr eq_zero_iff_getLsbD).mp ha)
  have h4 := @ctzStep_seeks _ _ (0, a) 0x0000FFFF#32 4 (by decide) (by decide) h5
  have h3 := ctzStep_seeks 0x000000FF#32 3 (by decide) (by decide) h4
  have h2 := ctzStep_seeks 0x0000000F#32 2 (by decide) (by decide) h3
  have h1 := ctzStep_seeks 0x00000003#32 1 (by decide) (by decide) h2
  exact (ctzStep_seeks 0x00000001#32 0 (by decide) (by decide) h1).found

theorem ctzdi2_first {a : BitVec 64} (ha : a ≠ 0#64) : FirstSet a.getLsbD (ctzdi2 a) := by
  have h6 := exists_set ((not_congr eq_zero_iff_getLsbD).mp ha)
  have h5 := @ctzStep_seeks _ _ (0, a) 0x00000000FFFFFFFF#64 5 (by decide) (by decide) h6
  have h4 := ctzStep_seeks 0x000000000000FFFF#64 4 (by decide) (by decide) h5
  have h3 := ctzStep_seeks 0x00000000000000FF#64 3 (by decide) (by decide) h4
  have h2 := ctzStep_seeks 0x000000000000000F#64 2 (by decide) (by decide) h3
  have h1 := ctzStep_seeks 0x0000000000000003#64 1 (by decide) (by decide) h2
  exact (ctzStep_seeks 0x0000000000000001#64 0 (by decide) (by decide) h1).found

theorem zero_counts (a : BitVec 64) (b : BitVec 32) :
    (a ≠ 0#64 → FirstSet a.getMsbD (clzdi2 a) ∧ FirstSet a.getLsbD (ctzdi2 a)) ∧
    (b ≠ 0#32 → FirstSet b.getMsbD (clzsi2 b) ∧ FirstSet b.getLsbD (ctzsi2 b)) ∧
    (ffsdi2 a = 0 ↔ a = 0#64) ∧ ∀ n, ffsdi2 a = n + 1 ↔ FirstSet a.getLsbD n := by
  refine ⟨fun ha => ⟨clzdi2_first ha, ctzdi2_first ha⟩, fun hb => ⟨clzsi2_first hb, ctzsi2_first hb⟩, ?_⟩
  unfold ffsdi2
  by_cases ha : a = 0#64
  · rw [if_neg (not_not.mpr ha)]
    refine ⟨iff_of_true rfl ha, fun n => iff_of_false (Nat.succ_ne_zero n).symm ?_⟩
    rintro ⟨hset, _⟩
    rw [ha, BitVec.getLsbD_zero] at hset
    cases hset
  · rw [if_pos ha]
    refine ⟨iff_of_false (Nat.succ_ne_zero _) ha, fun n => ?_⟩
    rw [Nat.add_right_cancel_iff]
    constructor
    · rintro rfl
      exact ctzdi2_first ha
    · exact (ctzdi2_first ha).unique

theorem zero_counts_forty : FirstSet (40#64).getMsbD (clzdi2 40#64) ∧ FirstSet (40#32).getLsbD (ctzsi2 40#32) := by
  obtain ⟨hwide, hword, _⟩ := zero_counts 40#64 40#32
  exact ⟨(hwide (by decide)).1, (hword (by decide)).2⟩

end Cezos.Arch64
