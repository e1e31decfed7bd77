import Mathlib.Algebra.Ring.Nat

namespace Cezos.Lib

variable {b n d k q r c r' : ℕ}

/-- The digits of `n` from place `k` up, in base `b`, are divided by `d`: the quotient is `q`, and `r` is left. -/
structure Divided (b n d k q r : ℕ) : Prop where
  eq : n / b ^ k = q * d + r
  lt : r < d

namespace Divided

theorem start (h : n / b ^ k < d) : Divided b n d k 0 (n / b ^ k) :=
  ⟨by rw [Nat.zero_mul, Nat.zero_add], h⟩

theorem next_digit : n / b ^ k = b * (n / b ^ (k + 1)) + n / b ^ k % b := by
  rw [Nat.pow_succ, ← Nat.div_div_eq_div_mul]
  exact (Nat.div_add_mod _ b).symm

theorem step (h : Divided b n d (k + 1) q r) (hc : b * r + n / b ^ k % b = c * d + r') (hr : r' < d) :
    Divided b n d k (b * q + c) r' := by
  refine ⟨?_, hr⟩
  calc n / b ^ k = b * (q * d + r) + n / b ^ k % b := by rw [← h.eq]; exact next_digit
    _ = b * (q * d) + (b * r + n / b ^ k % b) := by rw [Nat.mul_add, Nat.add_assoc]
    _ = (b * q + c) * d + r' := by rw [hc, ← Nat.mul_assoc, ← Nat.add_assoc, Nat.add_mul]

theorem quotient (h : Divided b n d 0 q r) : q = n / d := by
  have hn : n = q * d + r := by simpa using h.eq
  rw [hn, Nat.mul_comm, Nat.mul_add_div (Nat.zero_lt_of_lt h.lt), Nat.div_eq_of_lt h.lt, Nat.add_zero]

theorem remainder (h : Divided b n d 0 q r) : r = n % d := by
  have hn : n = q * d + r := by simpa using h.eq
  rw [hn, Nat.mul_comm, Nat.mul_add_mod, Nat.mod_eq_of_lt h.lt]

end Divided

end Cezos.Lib
