import Mathlib.Data.Nat.Digits.Defs

namespace Cezos.Lib

variable {base n d : ℕ} {ds es : List ℕ}

def value (base : ℕ) (ds : List ℕ) : ℕ := ds.foldl (fun v d => v * base + d) 0

@[simp] theorem value_nil : value base [] = 0 := rfl

@[simp] theorem value_single : value base [d] = d := by simp [value]

theorem value_snoc : value base (ds ++ [d]) = value base ds * base + d := by simp [value]

theorem value_zero_cons : value base (0 :: ds) = value base ds := by simp [value]

/-- `ds` are the digits of `n`, without a leading zero unless it is the only digit. -/
structure Positional (base n : ℕ) (ds : List ℕ) : Prop where
  digit : ∀ d ∈ ds, d < base
  value_eq : value base ds = n
  nonempty : ds ≠ []
  lead : ds.head? = some 0 → ds = [0]

def places (base n : ℕ) : List ℕ := if n = 0 then [0] else (Nat.digits base n).reverse

theorem places_of_lt (h : n < base) : places base n = [n] := by
  unfold places
  by_cases hn : n = 0
  · rw [if_pos hn, hn]
  · rw [if_neg hn, Nat.digits_of_lt base n hn h, List.reverse_singleton]

theorem places_of_le (hb : 1 < base) (h : base ≤ n) : places base n = places base (n / base) ++ [n % base] := by
  have hquot : n / base ≠ 0 := Nat.ne_of_gt (Nat.div_pos h (by omega))
  unfold places
  rw [if_neg (by omega), if_neg hquot, Nat.digits_def' hb (by omega), List.reverse_cons]

theorem places_induction {P : ℕ → Prop} (hb : 1 < base) (small : ∀ n < base, P n) (large : ∀ n, base ≤ n →
    P (n / base) → P n)
    (n : ℕ) : P n := by
  induction n using Nat.strongRecOn with
  | ind n ih =>
    rcases Nat.lt_or_ge n base with hlt | hge
    · exact small n hlt
    · exact large n hge (ih (n / base) (Nat.div_lt_self (by omega) hb))

theorem positional_places (hb : 1 < base) (n : ℕ) : Positional base n (places base n) := by
  induction n using places_induction hb with
  | small n hlt =>
    rw [places_of_lt hlt]
    refine ⟨fun d hd => ?_, value_single, List.cons_ne_nil _ _, fun h => ?_⟩
    · rw [List.mem_singleton.mp hd]
      exact hlt
    · rw [Option.some.inj h]
  | large n hge ih =>
    rw [places_of_le hb hge]
    refine ⟨fun d hd => ?_, ?_, List.append_ne_nil_of_left_ne_nil ih.nonempty _, fun h => ?_⟩
    · rcases List.mem_append.mp hd with hmem | hlast
      · exact ih.digit d hmem
      · rw [List.mem_singleton.mp hlast]
        exact Nat.mod_lt n (by omega)
    · rw [value_snoc, ih.value_eq, Nat.div_add_mod']
    · have hhead : (places base (n / base)).head? = some 0 := by
        obtain ⟨d, ds, hds⟩ := List.exists_cons_of_ne_nil ih.nonempty
        rw [hds] at h ⊢
        exact h
      have hzero := ih.value_eq
      rw [ih.lead hhead, value_single] at hzero
      exact absurd hzero.symm (Nat.ne_of_gt (Nat.div_pos hge (by omega)))

end Cezos.Lib
