import Cezos.Lib.Outcome

namespace Cezos.Lib

variable {σ α β : Type} {st : Bool} {s s₁ s' : σ} {a : α} {x y : Prog σ α} {f g : α → Prog σ β}

/-- `x` returns from `s`, every access a good one. -/
def Clean (x : Prog σ α) (s : σ) : Prop := ∃ a s', Returns true x s a s'

theorem clean_bind (h : Returns false x s a s₁) : Clean (x >>= f) s ↔ Clean x s ∧ Clean (f a) s₁ := by
  constructor
  · rintro ⟨b, s', hr⟩
    obtain ⟨a', s₂, hx, hf⟩ := returns_bind.mp hr
    obtain ⟨rfl, rfl⟩ := hx.unique h
    exact ⟨⟨a', s₂, hx⟩, b, s', hf⟩
  · rintro ⟨⟨a', s₂, hx⟩, b, s', hf⟩
    obtain ⟨rfl, rfl⟩ := hx.unique h
    exact ⟨b, s', returns_bind.mpr ⟨a', s₂, hx, hf⟩⟩

theorem clean_then (h : Returns true x s a s₁) : Clean (x >>= f) s ↔ Clean (f a) s₁ := by
  rw [clean_bind h.loosen]
  exact and_iff_right ⟨a, s₁, h⟩

theorem clean_pure : Clean (pure a : Prog σ α) s := ⟨a, s, returns_pure.mpr ⟨rfl, rfl⟩⟩

theorem clean_check {p : σ → Bool} : Clean (Prog.check p) s ↔ p s = true := by
  constructor
  · rintro ⟨_, _, h⟩
    exact (returns_check.mp h).2 rfl
  · intro hp
    exact ⟨(), s, returns_check.mpr ⟨rfl, fun _ => hp⟩⟩

def Steady (x : Prog σ α) : Prop := ∀ s a s', Returns false x s a s' → Returns true x s a s'

namespace Steady

theorem pure (a : α) : Steady (Pure.pure a : Prog σ α) := fun _ _ _ h => returns_pure.mpr (returns_pure.mp h)

theorem fault : Steady (Prog.fault : Prog σ α) := fun _ _ _ h => absurd h returns_fault

theorem spin : Steady (Prog.spin : Prog σ α) := fun _ _ _ h => absurd h returns_spin

theorem modify (k : σ → σ) : Steady (Prog.modify k) := fun _ _ _ h => returns_modify.mpr (returns_modify.mp h)

theorem bind (hx : Steady x) (hf : ∀ a, Steady (f a)) : Steady (x >>= f) := by
  intro s b s' h
  obtain ⟨a, s₁, h₁, h₂⟩ := returns_bind.mp h
  exact returns_bind.mpr ⟨a, s₁, hx _ _ _ h₁, hf a _ _ _ h₂⟩

theorem ite {p : Prop} [Decidable p] (hx : Steady x) (hy : Steady y) : Steady (if p then x else y) := by
  by_cases hp : p
  · rwa [if_pos hp]
  · rwa [if_neg hp]

theorem forUp {body : ℕ → Prog σ Unit} (h : ∀ k, Steady (body k)) (i n : ℕ) : Steady (Prog.forUp body i n) := by
  induction n generalizing i with
  | zero => exact pure ()
  | succ n ih => exact bind (h i) (fun _ => ih (i + 1))

theorem clean (hx : Steady x) (h : Returns false x s a s') : Clean x s := ⟨a, s', hx _ _ _ h⟩

end Steady

def Prog.quietly (x : Prog σ α) : Prog σ α := fun s =>
  match x s with
  | .ret a s' _ => .ret a s' true
  | .errorLoop msg s' _ => .errorLoop msg s' true
  | .fault s' => .fault s'
  | .spin s' => .spin s'

theorem returns_quietly : Returns st (Prog.quietly x) s a s' ↔ Returns false x s a s' := by
  constructor
  · rintro ⟨_, h, _⟩
    unfold Prog.quietly at h
    cases hx : x s with
    | ret b s₁ c =>
      simp only [hx, Outcome.ret.injEq] at h
      obtain ⟨rfl, rfl, _⟩ := h
      exact returns_ret hx
    | errorLoop msg s₁ c => simp [hx] at h
    | fault s₁ => simp [hx] at h
    | spin s₁ => simp [hx] at h
  · rintro ⟨c, hx, _⟩
    refine ⟨true, ?_, fun _ => rfl⟩
    simp only [Prog.quietly, hx]

def Agree (x y : Prog σ α) : Prop := ∀ s a s', Returns false x s a s' ↔ Returns false y s a s'

namespace Agree

theorem refl (x : Prog σ α) : Agree x x := fun _ _ _ => Iff.rfl

theorem quietly (h : Agree x y) : Agree (Prog.quietly x) y := fun s a s' => returns_quietly.trans (h s a s')

theorem bind (hx : Agree x y) (hf : ∀ a, Agree (f a) (g a)) : Agree (x >>= f) (y >>= g) := by
  intro s b s'
  rw [returns_bind, returns_bind]
  exact exists_congr (fun a => exists_congr (fun s₁ => and_congr (hx s a s₁) (hf a s₁ b s')))

theorem after (x : Prog σ α) (hf : ∀ a, Agree (f a) (g a)) : Agree (x >>= f) (x >>= g) := (refl x).bind hf

theorem ite {p : Prop} [Decidable p] {x' y' : Prog σ α} (h : Agree x y) (h' : Agree x' y') :
    Agree (if p then x else x') (if p then y else y') := by
  by_cases hp : p
  · rwa [if_pos hp, if_pos hp]
  · rwa [if_neg hp, if_neg hp]

end Agree

end Cezos.Lib
