import Cezos.Lib.Outcome

namespace Cezos.Lib

variable {σ τ α β : Type} {f : σ → τ}

/-- `x` always returns, every access a good one, and leaves what `f` shows of the state as it was. -/
def Keeps (f : σ → τ) (x : Prog σ α) : Prop := ∀ s, ∃ a s', Returns true x s a s' ∧ f s' = f s

namespace Keeps

theorem returns {x : Prog σ α} {s s' : σ} {a : α} {st : Bool} (h : Keeps f x) (hr : Returns st x s a s') :
    f s' = f s := by
  obtain ⟨b, s₁, hx, hf⟩ := h s
  rwa [(hr.unique hx).2]

theorem pure (a : α) : Keeps f (Pure.pure a : Prog σ α) := fun s => ⟨a, s, returns_pure.mpr ⟨rfl, rfl⟩, rfl⟩

theorem read (g : σ → α) : Keeps f (Prog.read g) := fun s => ⟨g s, s, returns_read.mpr ⟨rfl, rfl⟩, rfl⟩

theorem modify {g : σ → σ} (h : ∀ s, f (g s) = f s) : Keeps f (Prog.modify g) := fun s =>
  ⟨(), g s, returns_modify.mpr rfl, h s⟩

theorem bind {x : Prog σ α} {g : α → Prog σ β} (hx : Keeps f x) (hg : ∀ a, Keeps f (g a)) : Keeps f (x >>= g) := by
  intro s
  obtain ⟨a, s₁, h₁, hf₁⟩ := hx s
  obtain ⟨b, s₂, h₂, hf₂⟩ := hg a s₁
  exact ⟨b, s₂, returns_bind.mpr ⟨a, s₁, h₁, h₂⟩, hf₂.trans hf₁⟩

theorem ite {p : Prop} [Decidable p] {x y : Prog σ α} (hx : Keeps f x) (hy : Keeps f y) :
    Keeps f (if p then x else y) := by
  by_cases hp : p
  · rwa [if_pos hp]
  · rwa [if_neg hp]

theorem whileSome (left : β → ℕ) {step : β → Prog σ (Option β)} {n : ℕ} {b : β}
    (h : ∀ b s, ∃ r s', Returns true (step b) s r s' ∧ f s' = f s ∧ ∀ b', r = some b' → left b' < left b)
    (hn : left b < n) : Keeps f (Prog.whileSome step n b) := by
  intro s
  induction n generalizing b s with
  | zero => omega
  | succ n ih =>
    obtain ⟨r, s₁, hr, hf, hleft⟩ := h b s
    cases r with
    | none => exact ⟨b, s₁, returns_whileSome_succ.mpr (Or.inl ⟨hr, rfl⟩), hf⟩
    | some b' =>
      have hlt := hleft b' rfl
      obtain ⟨c, s₂, hr₂, hf₂⟩ := ih (b := b') (by omega) s₁
      exact ⟨c, s₂, returns_whileSome_succ.mpr (Or.inr ⟨b', s₁, hr, hr₂⟩), hf₂.trans hf⟩

end Keeps

end Cezos.Lib
