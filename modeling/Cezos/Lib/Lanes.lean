import Mathlib.Data.Nat.Digits.Lemmas

namespace Cezos.Lib

variable {w n m x : ℕ} {ds : List ℕ}

/-! ### Numbers as lanes

A number is read as the list of its digits in base `2 ^ w`, least significant first: its lanes. -/

def evens : List ℕ → List ℕ
  | d :: _ :: ds => d :: evens ds
  | ds => ds

def odds : List ℕ → List ℕ
  | _ :: e :: ds => e :: odds ds
  | _ => []

def pairs : List ℕ → List ℕ
  | d :: e :: ds => (d + e) :: pairs ds
  | ds => ds

/-- The lower `w` bits of `n` lanes of `2 * w` bits. -/
def laneMask (w : ℕ) : ℕ → ℕ
  | 0 => 0
  | n + 1 => 2 ^ (2 * w) * laneMask w n + (2 ^ w - 1)

theorem pairs_induction {P : List ℕ → Prop} (nil : P []) (single : ∀ d, P [d])
    (pair : ∀ d e ds, P ds → P (d :: e :: ds)) (ds : List ℕ) : P ds :=
  match ds with
  | [] => nil
  | [d] => single d
  | d :: e :: ds => pair d e ds (pairs_induction nil single pair ds)

theorem length_pairs (ds : List ℕ) : (pairs ds).length = (ds.length + 1) / 2 := by
  induction ds using pairs_induction with
  | nil => rfl
  | single d => simp [pairs]
  | pair d e ds ih =>
    simp only [pairs, List.length_cons, ih]
    omega

theorem sum_pairs (ds : List ℕ) : (pairs ds).sum = ds.sum := by
  fun_induction pairs ds with
  | case1 d e ds ih => simp only [List.sum_cons, ih, Nat.add_assoc]
  | case2 => rfl

theorem pairs_le (h : ∀ d ∈ ds, d ≤ m) : ∀ d ∈ pairs ds, d ≤ 2 * m := by
  fun_induction pairs ds with
  | case1 d e ds ih =>
    simp only [List.forall_mem_cons] at h ⊢
    obtain ⟨hd, he, hds⟩ := h
    exact ⟨by omega, ih hds⟩
  | case2 ds =>
    intro d hd
    have := h d hd
    omega

theorem ofDigits_pairs (b : ℕ) (ds : List ℕ) : Nat.ofDigits b (pairs ds) = Nat.ofDigits b (evens ds) +
    Nat.ofDigits b (odds ds) := by
  induction ds using pairs_induction with
  | nil => rfl
  | single d => rfl
  | pair d e ds ih =>
    simp only [pairs, evens, odds, Nat.ofDigits_cons, ih, Nat.mul_add]
    omega

theorem ofDigits_evens_odds (b : ℕ) (ds : List ℕ) :
    Nat.ofDigits b ds = Nat.ofDigits (b ^ 2) (evens ds) + b * Nat.ofDigits (b ^ 2) (odds ds) := by
  induction ds using pairs_induction with
  | nil => simp [evens, odds]
  | single d => simp [evens, odds]
  | pair d e ds ih =>
    simp only [evens, odds, Nat.ofDigits_cons, ih]
    ring

theorem and_laneMask_succ (x : ℕ) :
    x &&& laneMask w (n + 1) = 2 ^ (2 * w) * (x / 2 ^ (2 * w) &&& laneMask w n) + x % 2 ^ w := by
  have hlow : 2 ^ w - 1 < 2 ^ (2 * w) := by
    have hpow : 2 ^ w ≤ 2 ^ (2 * w) := Nat.pow_le_pow_right (by decide) (by omega)
    have hpos := Nat.two_pow_pos w
    omega
  have hmod : x % 2 ^ w < 2 ^ (2 * w) :=
    Nat.lt_of_lt_of_le (Nat.mod_lt _ (Nat.two_pow_pos w)) (Nat.pow_le_pow_right (by decide) (by omega))
  apply Nat.eq_of_testBit_eq
  intro i
  rw [laneMask, Nat.testBit_and, Nat.testBit_two_pow_mul_add _ hlow, Nat.testBit_two_pow_mul_add _ hmod]
  by_cases hi : i < 2 * w
  · rw [if_pos hi, if_pos hi, Nat.testBit_two_pow_sub_one, Nat.testBit_mod_two_pow, Bool.and_comm]
  · rw [if_neg hi, if_neg hi, Nat.testBit_and, Nat.testBit_div_two_pow]
    congr 2
    omega

theorem div_two_pow_double (x w : ℕ) : x / 2 ^ (2 * w) = x / 2 ^ w / 2 ^ w := by
  rw [Nat.div_div_eq_div_mul, ← Nat.pow_add, Nat.two_mul]

theorem ofDigits_cons_mod {d : ℕ} (hd : d < 2 ^ w) : Nat.ofDigits (2 ^ w) (d :: ds) % 2 ^ w = d := by
  rw [Nat.ofDigits_cons, Nat.add_mul_mod_self_left, Nat.mod_eq_of_lt hd]

theorem ofDigits_cons_div {d : ℕ} (hd : d < 2 ^ w) :
    Nat.ofDigits (2 ^ w) (d :: ds) / 2 ^ w = Nat.ofDigits (2 ^ w) ds := by
  rw [Nat.ofDigits_cons, Nat.add_mul_div_left _ _ (Nat.two_pow_pos w), Nat.div_eq_of_lt hd, Nat.zero_add]

theorem and_evens (h : ∀ d ∈ ds, d < 2 ^ w) (hn : ds.length ≤ 2 * n) :
    Nat.ofDigits (2 ^ w) ds &&& laneMask w n = Nat.ofDigits (2 ^ (2 * w)) (evens ds) := by
  induction ds using pairs_induction generalizing n with
  | nil => exact Nat.zero_and _
  | single d =>
    obtain ⟨n, rfl⟩ : ∃ k, n = k + 1 := ⟨n - 1, by simp at hn; omega⟩
    have hd := h d List.mem_cons_self
    rw [and_laneMask_succ, div_two_pow_double, ofDigits_cons_div hd, ofDigits_cons_mod hd]
    simp [evens]
  | pair d e ds ih =>
    obtain ⟨n, rfl⟩ : ∃ k, n = k + 1 := ⟨n - 1, by simp at hn; omega⟩
    simp only [List.forall_mem_cons] at h
    obtain ⟨hd, he, hds⟩ := h
    rw [and_laneMask_succ, div_two_pow_double, ofDigits_cons_div hd, ofDigits_cons_div he, ofDigits_cons_mod hd,
      ih hds (by simp at hn; omega), evens, Nat.ofDigits_cons, Nat.add_comm]

theorem and_odds (h : ∀ d ∈ ds, d < 2 ^ w) (hn : ds.length ≤ 2 * n) :
    Nat.ofDigits (2 ^ w) ds / 2 ^ w &&& laneMask w n = Nat.ofDigits (2 ^ (2 * w)) (odds ds) := by
  induction ds using pairs_induction generalizing n with
  | nil => simp [odds]
  | single d =>
    rw [ofDigits_cons_div (h d List.mem_cons_self)]
    exact Nat.zero_and _
  | pair d e ds ih =>
    obtain ⟨n, rfl⟩ : ∃ k, n = k + 1 := ⟨n - 1, by simp at hn; omega⟩
    simp only [List.forall_mem_cons] at h
    obtain ⟨hd, he, hds⟩ := h
    rw [ofDigits_cons_div hd, and_laneMask_succ, div_two_pow_double, ofDigits_cons_div he, ofDigits_cons_mod he,
      ih hds (by simp at hn; omega), odds, Nat.ofDigits_cons, Nat.add_comm]

/-! ### Bits

The narrowest lanes are the bits. -/

def bits (x n : ℕ) : List ℕ := (List.range n).map (fun i => (x.testBit i).toNat)

theorem length_bits (x n : ℕ) : (bits x n).length = n := by
  rw [bits, List.length_map, List.length_range]

theorem bits_le : ∀ d ∈ bits x n, d ≤ 1 := by
  intro d hd
  obtain ⟨i, _, rfl⟩ := List.mem_map.mp hd
  exact Bool.toNat_le _

theorem bits_succ (x n : ℕ) : bits x (n + 1) = x % 2 :: bits (x / 2) n := by
  unfold bits
  rw [List.range_succ_eq_map, List.map_cons, List.map_map, Nat.testBit_zero]
  congr 1
  · rcases Nat.mod_two_eq_zero_or_one x with h | h <;> rw [h] <;> rfl
  · apply List.map_congr_left
    intro i _
    exact congrArg Bool.toNat (Nat.testBit_succ x i)

theorem ofDigits_bits (h : x < 2 ^ n) : Nat.ofDigits 2 (bits x n) = x := by
  induction n generalizing x with
  | zero => rw [Nat.lt_one_iff.mp h]; rfl
  | succ n ih =>
    rw [bits_succ, Nat.ofDigits_cons, ih (by omega)]
    exact Nat.mod_add_div x 2

theorem pairs_by_sub (h : ∀ d ∈ ds, d ≤ 1) (hn : ds.length ≤ 2 * n) :
    Nat.ofDigits 2 ds - (Nat.ofDigits 2 ds / 2 &&& laneMask 1 n) = Nat.ofDigits 4 (pairs ds) := by
  have hodds := @and_odds 1 n ds (fun d hd => Nat.lt_succ_of_le (h d hd)) hn
  have hsplit := ofDigits_evens_odds 2 ds
  have hpairs := ofDigits_pairs 4 ds
  rw [Nat.pow_one] at hodds
  rw [hodds, hsplit, hpairs]
  change Nat.ofDigits 4 (evens ds) + 2 * Nat.ofDigits 4 (odds ds) - Nat.ofDigits 4 (odds ds) = _
  omega

theorem pairs_by_masks (h : ∀ d ∈ ds, d < 2 ^ w) (hn : ds.length ≤ 2 * n) :
    (Nat.ofDigits (2 ^ w) ds / 2 ^ w &&& laneMask w n) + (Nat.ofDigits (2 ^ w) ds &&& laneMask w n) =
      Nat.ofDigits (2 ^ (2 * w)) (pairs ds) := by
  rw [and_odds h hn, and_evens h hn, ofDigits_pairs, Nat.add_comm]

def neighbours : List ℕ → List ℕ
  | d :: e :: ds => (d + e) :: neighbours (e :: ds)
  | ds => ds

theorem evens_neighbours (ds : List ℕ) : evens (neighbours ds) = pairs ds := by
  induction ds using pairs_induction with
  | nil => rfl
  | single d => rfl
  | pair d e ds ih =>
    cases ds with
    | nil => rfl
    | cons c ds => rw [neighbours, neighbours, evens, ih, pairs]

theorem length_neighbours (ds : List ℕ) : (neighbours ds).length = ds.length := by
  fun_induction neighbours ds with
  | case1 d e ds ih => exact congrArg (· + 1) ih
  | case2 => rfl

theorem neighbours_lt (h : ∀ d ∈ ds, 2 * d < m) : ∀ d ∈ neighbours ds, d < m := by
  fun_induction neighbours ds with
  | case1 d e ds ih =>
    simp only [List.forall_mem_cons] at h ⊢
    obtain ⟨hd, he, hds⟩ := h
    exact ⟨by omega, ih (List.forall_mem_cons.mpr ⟨he, hds⟩)⟩
  | case2 ds =>
    intro d hd
    have := h d hd
    omega

theorem ofDigits_neighbours (b : ℕ) (ds : List ℕ) :
    Nat.ofDigits b (neighbours ds) = Nat.ofDigits b ds + Nat.ofDigits b ds.tail := by
  fun_induction neighbours ds with
  | case1 d e ds ih =>
    simp only [Nat.ofDigits_cons, ih, List.tail_cons]
    ring
  | case2 ds h =>
    match ds with
    | [] => rfl
    | [_] => rfl
    | d :: e :: ds => exact (h d e ds rfl).elim

theorem add_div_two_pow (h : ∀ d ∈ ds, d < 2 ^ w) :
    Nat.ofDigits (2 ^ w) ds + Nat.ofDigits (2 ^ w) ds / 2 ^ w = Nat.ofDigits (2 ^ w) (neighbours ds) := by
  have htail : Nat.ofDigits (2 ^ w) ds / 2 ^ w = Nat.ofDigits (2 ^ w) ds.tail := by
    cases ds with
    | nil => simp
    | cons d ds => exact ofDigits_cons_div (h d List.mem_cons_self)
  rw [htail, ofDigits_neighbours]

theorem pairs_by_mask (h : ∀ d ∈ ds, 2 * d < 2 ^ w) (hn : ds.length ≤ 2 * n) :
    Nat.ofDigits (2 ^ w) (neighbours ds) &&& laneMask w n = Nat.ofDigits (2 ^ (2 * w)) (pairs ds) := by
  rw [and_evens (neighbours_lt h) (by rwa [length_neighbours]), evens_neighbours]

theorem ofDigits_lt (h : ∀ d ∈ ds, d < 2 ^ w) (hw : 0 < w) : Nat.ofDigits (2 ^ w) ds < 2 ^ (w * ds.length) := by
  rw [Nat.pow_mul]
  exact Nat.ofDigits_lt_base_pow_length (Nat.one_lt_two_pow (by omega)) h

theorem zipWith_le {ls us : List ℕ} (hls : ∀ d ∈ ls, d ≤ m) (hus : ∀ d ∈ us, d ≤ m) :
    ∀ d ∈ List.zipWith (· + ·) ls us, d ≤ 2 * m := by
  induction ls generalizing us with
  | nil => simp
  | cons l ls ih =>
    cases us with
    | nil => simp
    | cons u us =>
      simp only [List.forall_mem_cons, List.zipWith_cons_cons] at hls hus ⊢
      exact ⟨by omega, ih hls.2 hus.2⟩

theorem fold_lanes {ls us : List ℕ} (hw : 0 < w) (hlen : ls.length = us.length) (hls : ∀ d ∈ ls, d < 2 ^ w)
    (hsum : ∀ d ∈ List.zipWith (· + ·) ls us, d < 2 ^ w)
    (hx : x % 2 ^ (2 * (w * us.length)) = Nat.ofDigits (2 ^ w) (ls ++ us)) :
    (x + x / 2 ^ (w * us.length)) % 2 ^ (w * us.length) = Nat.ofDigits (2 ^ w) (List.zipWith (· + ·) ls us) := by
  have hlow := ofDigits_lt hls hw
  have hfold := ofDigits_lt hsum hw
  rw [List.length_zipWith, hlen, Nat.min_self] at hfold
  rw [hlen] at hlow
  rw [Nat.ofDigits_append, hlen, ← Nat.pow_mul] at hx
  have hmod : x % 2 ^ (w * us.length) = Nat.ofDigits (2 ^ w) ls := by
    rw [← Nat.mod_mod_of_dvd x (Nat.pow_dvd_pow 2 (show w * us.length ≤ 2 * (w * us.length) by omega)), hx,
      Nat.add_mul_mod_self_left, Nat.mod_eq_of_lt hlow]
  have hdiv : x / 2 ^ (w * us.length) % 2 ^ (w * us.length) = Nat.ofDigits (2 ^ w) us := by
    rw [← Nat.mod_mul_right_div_self, ← Nat.pow_add, ← Nat.two_mul, hx, Nat.add_mul_div_left _ _ (Nat.two_pow_pos _),
      Nat.div_eq_of_lt hlow, Nat.zero_add]
  rw [Nat.add_mod, hmod, hdiv, Nat.ofDigits_add_ofDigits_eq_ofDigits_zipWith_of_length_eq hlen,
    Nat.mod_eq_of_lt hfold]

end Cezos.Lib
