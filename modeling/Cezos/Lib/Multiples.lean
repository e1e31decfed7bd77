import Mathlib.Order.Bounds.Basic
import Mathlib.Tactic.Common

namespace Cezos.Lib

variable {n a f p : ℕ}

/-- `f` is the first multiple of `n` that is not below `a`. -/
def FirstMultiple (n a f : ℕ) : Prop := IsLeast {m | n ∣ m ∧ a ≤ m} f

theorem firstMultiple_iff : FirstMultiple n a f ↔ (n ∣ f ∧ a ≤ f) ∧ ∀ p, a ≤ n * p → f ≤ n * p := by
  constructor
  · rintro ⟨hf, hleast⟩
    exact ⟨hf, fun p hp => hleast ⟨Nat.dvd_mul_right n p, hp⟩⟩
  · rintro ⟨hf, hleast⟩
    refine ⟨hf, ?_⟩
    rintro m ⟨⟨p, rfl⟩, hp⟩
    exact hleast p hp

theorem FirstMultiple.below (h : FirstMultiple n a f) (hp : n * p < f) : n * p < a := by
  by_contra hle
  exact absurd ((firstMultiple_iff.mp h).2 p (Nat.not_lt.mp hle)) (Nat.not_le.mpr hp)

theorem firstMultiple_self : FirstMultiple n (n * p) (n * p) :=
  firstMultiple_iff.mpr ⟨⟨Nat.dvd_mul_right n p, Nat.le_refl _⟩, fun _ h => h⟩

theorem firstMultiple_iff_lt (hn : 0 < n) : FirstMultiple n a (n * f) ↔ ∀ p, p < f ↔ n * p < a := by
  constructor
  · intro h p
    refine ⟨fun hp => h.below (Nat.mul_lt_mul_of_pos_left hp hn), fun hp => ?_⟩
    have hle := (firstMultiple_iff.mp h).1.2
    exact Nat.lt_of_mul_lt_mul_left (Nat.lt_of_lt_of_le hp hle)
  · intro h
    refine firstMultiple_iff.mpr ⟨⟨Nat.dvd_mul_right n f, ?_⟩, fun p hp => ?_⟩
    · exact Nat.not_lt.mp (mt (h f).mpr (Nat.lt_irrefl f))
    · exact Nat.mul_le_mul_left n (Nat.not_lt.mp (mt (h p).mp (Nat.not_lt.mpr hp)))

theorem not_firstMultiple (h : ¬ FirstMultiple n a (n * p)) (ha : a ≤ n * p) : ∃ q, a ≤ n * q ∧ q < p := by
  rw [firstMultiple_iff, not_and, not_forall] at h
  obtain ⟨q, hq⟩ := h ⟨Nat.dvd_mul_right n p, ha⟩
  rw [Classical.not_imp, Nat.not_le] at hq
  exact ⟨q, hq.1, Nat.lt_of_mul_lt_mul_left hq.2⟩

theorem firstMultiple_next_iff (hn : 0 < n) : FirstMultiple n a (n * (a / n + 1)) ↔ ¬ n ∣ a := by
  have hdiv := Nat.div_add_mod a n
  have hmod := Nat.mod_lt a hn
  rw [firstMultiple_iff]
  constructor
  · rintro ⟨_, hleast⟩ ⟨p, rfl⟩
    have hle := hleast p (Nat.le_refl _)
    rw [Nat.mul_div_cancel_left p hn, Nat.mul_succ] at hle
    omega
  · intro hdvd
    have hpos : 0 < a % n := Nat.pos_of_ne_zero (fun h => hdvd (Nat.dvd_of_mod_eq_zero h))
    refine ⟨⟨Nat.dvd_mul_right n _, ?_⟩, fun p hp => ?_⟩
    · rw [Nat.mul_succ]
      omega
    · apply Nat.mul_le_mul_left
      by_contra hlt
      have hle := Nat.mul_le_mul_left n (show p ≤ a / n by omega)
      omega

end Cezos.Lib
