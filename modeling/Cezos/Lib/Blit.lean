import Mathlib.Logic.Function.Basic
import Mathlib.Tactic.Common

namespace Cezos.Lib

variable {β : Type} {mem data data' : ℕ → β} {dst src n m i : ℕ} {b : β}

/-- `mem` after the `n` values of `data` are written from `dst` on. -/
def blit (mem : ℕ → β) (dst n : ℕ) (data : ℕ → β) : ℕ → β := fun i =>
  if dst ≤ i ∧ i < dst + n then data (i - dst) else mem i

namespace Blit

theorem outside (h : i < dst ∨ dst + n ≤ i) : blit mem dst n data i = mem i :=
  if_neg (by omega)

theorem inside (h : i < n) : blit mem dst n data (dst + i) = data i := by
  rw [blit, if_pos (by omega), Nat.add_sub_cancel_left]

@[simp] theorem zero : blit mem dst 0 data = mem := by
  funext i
  exact outside (by omega)

theorem succ : blit mem dst (n + 1) data = Function.update (blit mem dst n data) (dst + n) (data n) := by
  funext i
  by_cases hi : i = dst + n
  · subst hi
    rw [inside (Nat.lt_succ_self n), Function.update_self]
  · rw [Function.update_of_ne hi]
    unfold blit
    split <;> split <;> first | rfl | omega

theorem copy (h : dst ≤ src) : Function.update (blit mem dst n (fun i => mem (src + i))) (dst + n)
    (blit mem dst n (fun i => mem (src + i)) (src + n)) = blit mem dst (n + 1) (fun i => mem (src + i)) := by
  rw [succ, outside (by omega)]

theorem append : blit (blit mem dst n data) (dst + n) m data' =
    blit mem dst (n + m) (fun i => if i < n then data i else data' (i - n)) := by
  funext i
  by_cases h₁ : dst + n ≤ i ∧ i < dst + n + m
  · have hin : dst ≤ i ∧ i < dst + (n + m) := by omega
    have hge : ¬ i - dst < n := by omega
    simp only [blit, if_pos h₁, if_pos hin, if_neg hge]
    congr 1
    omega
  · by_cases h₂ : dst ≤ i ∧ i < dst + n
    · have hin : dst ≤ i ∧ i < dst + (n + m) := by omega
      have hlt : i - dst < n := by omega
      simp only [blit, if_neg h₁, if_pos h₂, if_pos hin, if_pos hlt]
    · have hout : ¬ (dst ≤ i ∧ i < dst + (n + m)) := by omega
      simp only [blit, if_neg h₁, if_neg h₂, if_neg hout]

theorem congr (h : ∀ i < n, data i = data' i) : blit mem dst n data = blit mem dst n data' := by
  funext i
  unfold blit
  split
  · exact h _ (by omega)
  · rfl

/-- `n` cells are copied from `src` on, each out of the memory that the ones before it have left. -/
def forward (mem : ℕ → β) (dst src : ℕ) : ℕ → ℕ → β
  | 0 => mem
  | n + 1 => Function.update (forward mem dst src n) (dst + n) (forward mem dst src n (src + n))

theorem forward_down (h : dst ≤ src) : forward mem dst src n = blit mem dst n (fun i => mem (src + i)) := by
  induction n with
  | zero => rw [forward, zero]
  | succ n ih => rw [forward, ih, copy h]

theorem forward_up (h : src < dst) :
    forward mem dst src n = blit mem dst n (fun i => mem (src + i % (dst - src))) := by
  induction n with
  | zero => rw [forward, zero]
  | succ n ih =>
    have hread : blit mem dst n (fun i => mem (src + i % (dst - src))) (src + n) = mem (src + n % (dst - src)) := by
      by_cases hn : n < dst - src
      · rw [outside (by omega), Nat.mod_eq_of_lt hn]
      · have hback : src + n = dst + (n - (dst - src)) := by omega
        rw [hback, inside (by omega), Nat.mod_eq_sub_mod (Nat.le_of_not_lt hn)]
    rw [forward, ih, hread, succ]

theorem forward_outside (h : i < dst ∨ dst + n ≤ i) : forward mem dst src n i = mem i := by
  rcases Nat.lt_or_ge src dst with hlt | hle
  · rw [forward_up hlt, outside h]
  · rw [forward_down hle, outside h]

theorem periodic_iff {d : ℕ} (hd : 0 < d) : (∀ k < n, mem (src + k % d) = mem (src + k)) ↔
    ∀ k, k + d < n → mem (src + (k + d)) = mem (src + k) := by
  constructor
  · intro h k hk
    rw [← h (k + d) hk, Nat.add_mod_right, h k (by omega)]
  · intro h k
    induction k using Nat.strongRecOn with
    | ind k ih =>
      intro hk
      rcases Nat.lt_or_ge k d with hlt | hge
      · rw [Nat.mod_eq_of_lt hlt]
      · have hback := h (k - d) (by omega)
        rw [Nat.sub_add_cancel hge] at hback
        rw [Nat.mod_eq_sub_mod hge, ih (k - d) (by omega) (by omega), hback]

theorem forward_moves_iff : (∀ k < n, forward mem dst src n (dst + k) = mem (src + k)) ↔
    (src < dst → ∀ k, dst + k < src + n → mem (dst + k) = mem (src + k)) := by
  rcases Nat.lt_or_ge src dst with hlt | hle
  · have hinside : ∀ k < n, forward mem dst src n (dst + k) = mem (src + k % (dst - src)) := fun k hk => by
      rw [forward_up hlt, inside hk]
    have hperiodic := @periodic_iff _ mem src n (dst - src) (by omega)
    constructor
    · intro h _ k hk
      have hk' := hperiodic.mp (fun k hk => by rw [← hinside k hk, h k hk]) k (by omega)
      rwa [show src + (k + (dst - src)) = dst + k by omega] at hk'
    · intro h k hk
      rw [hinside k hk]
      refine hperiodic.mpr (fun j hj => ?_) k hk
      rw [show src + (j + (dst - src)) = dst + j by omega]
      exact h hlt j (by omega)
  · constructor
    · exact fun _ hlt => absurd hlt (Nat.not_lt.mpr hle)
    · intro _ k hk
      rw [forward_down hle, inside hk]

end Blit

end Cezos.Lib
