import Mathlib.Tactic.Common
import Mathlib.Data.Nat.Find

namespace Cezos.Lib

variable {bit : ℕ → Bool} {n k m : ℕ}

/-- `n` is the first place at which the sequence is set. -/
structure FirstSet (bit : ℕ → Bool) (n : ℕ) : Prop where
  set : bit n = true
  clear : ∀ i < n, bit i = false

namespace FirstSet

theorem unique (h : FirstSet bit n) (h' : FirstSet bit k) : n = k := by
  rcases Nat.lt_trichotomy n k with hlt | heq | hgt
  · have := h'.clear n hlt
    rw [h.set] at this
    cases this
  · exact heq
  · have := h.clear k hgt
    rw [h'.set] at this
    cases this

theorem exists_of_set (h : bit k = true) : ∃ n ≤ k, FirstSet bit n := by
  have hex : ∃ n, bit n = true := ⟨k, h⟩
  refine ⟨Nat.find hex, Nat.find_min' hex h, Nat.find_spec hex, fun i hi => ?_⟩
  exact Bool.eq_false_iff.mpr (Nat.find_min hex hi)

theorem drop_iff (hm : ∀ i < m, bit i = false) : FirstSet (fun i => bit (i + m)) k ↔ FirstSet bit (k + m) := by
  constructor
  · rintro ⟨hset, hclear⟩
    refine ⟨hset, fun i hi => ?_⟩
    by_cases hlt : i < m
    · exact hm i hlt
    · have := hclear (i - m) (by omega)
      rwa [Nat.sub_add_cancel (Nat.not_lt.mp hlt)] at this
  · rintro ⟨hset, hclear⟩
    exact ⟨hset, fun i hi => hclear (i + m) (by omega)⟩

theorem clear_iff (h : FirstSet bit n) : (∀ i < m, bit i = false) ↔ m ≤ n := by
  constructor
  · intro hm
    by_contra hlt
    have := hm n (by omega)
    rw [h.set] at this
    cases this
  · intro hle i hi
    exact h.clear i (by omega)

end FirstSet

/-- The search has passed `passed` places of `bit₀`, and what it still looks at is `bit`, set within its first `m`
places. -/
def Seeks (bit₀ : ℕ → Bool) (passed : ℕ) (bit : ℕ → Bool) (m : ℕ) : Prop :=
  ∃ k < m, FirstSet bit k ∧ FirstSet bit₀ (k + passed)

namespace Seeks

variable {bit₀ bit' : ℕ → Bool} {passed b : ℕ}

theorem start (h : bit k = true) (hk : k < m) : Seeks bit 0 bit m := by
  obtain ⟨n, hn, hfirst⟩ := FirstSet.exists_of_set h
  exact ⟨n, by omega, hfirst, hfirst⟩

theorem halve (h : Seeks bit₀ passed bit (2 * m)) (hb : b = if ∀ i < m, bit i = false then m else 0)
    (hbit : ∀ i, bit' i = bit (i + b)) : Seeks bit₀ (passed + b) bit' m := by
  obtain ⟨k, hk, hfirst, hall⟩ := h
  obtain rfl : bit' = fun i => bit (i + b) := funext hbit
  by_cases hclear : ∀ i < m, bit i = false
  · rw [if_pos hclear] at hb
    subst hb
    have hle := hfirst.clear_iff.mp hclear
    refine ⟨k - b, by omega, (FirstSet.drop_iff hclear).mpr ?_, ?_⟩
    · rwa [Nat.sub_add_cancel hle]
    · rwa [show k - b + (passed + b) = k + passed by omega]
  · rw [if_neg hclear] at hb
    subst hb
    have hlt := (not_congr hfirst.clear_iff).mp hclear
    exact ⟨k, by omega, hfirst, hall⟩

theorem found (h : Seeks bit₀ passed bit 1) : FirstSet bit₀ passed := by
  obtain ⟨k, hk, _, hall⟩ := h
  obtain rfl : k = 0 := by omega
  rwa [Nat.zero_add] at hall

end Seeks

end Cezos.Lib
