import Cezos.Lib.Outcome

namespace Cezos.Lib

variable {σ α β : Type} {st : Bool} {s s₁ s' : σ} {a a' : α} {b b' r : β}

/-- With enough fuel `x` returns `a` in the state `s'`; when `st` is set, every access is a good one. -/
def EndsAs (st : Bool) (x : ℕ → Prog σ α) (s : σ) (a : α) (s' : σ) : Prop :=
  ∃ N, ∀ fuel, N ≤ fuel → Returns st (x fuel) s a s'

/-- With enough fuel `x` returns `a` in the state `s'`, every access a good one. -/
def Ends (x : ℕ → Prog σ α) (s : σ) (a : α) (s' : σ) : Prop := ∃ N, ∀ fuel, N ≤ fuel → Returns true (x fuel) s a s'

def LoopEndsAs (st : Bool) (step : ℕ → β → Prog σ (Option β)) (b : β) (s : σ) (r : β) (s' : σ) : Prop :=
  ∃ N, ∀ fuel turns, N ≤ fuel → N ≤ turns → Returns st (Prog.whileSome (step fuel) turns b) s r s'

def LoopEnds (step : ℕ → β → Prog σ (Option β)) (b : β) (s : σ) (r : β) (s' : σ) : Prop :=
  ∃ N, ∀ fuel turns, N ≤ fuel → N ≤ turns → Returns true (Prog.whileSome (step fuel) turns b) s r s'

namespace EndsAs

theorem of_returns {x : Prog σ α} (h : Returns st x s a s') : EndsAs st (fun _ => x) s a s' := ⟨0, fun _ _ => h⟩

theorem bind {x : ℕ → Prog σ α} {f : ℕ → α → Prog σ β} (hx : EndsAs st x s a s₁)
    (hf : EndsAs st (fun fuel => f fuel a) s₁ b s') :
    EndsAs st (fun fuel => x fuel >>= f fuel) s b s' := by
  obtain ⟨N, hN⟩ := hx
  obtain ⟨M, hM⟩ := hf
  exact ⟨max N M, fun fuel hle => returns_bind.mpr
    ⟨a, s₁, hN fuel (Nat.le_trans (Nat.le_max_left N M) hle), hM fuel (Nat.le_trans (Nat.le_max_right N M) hle)⟩⟩

theorem step {x : Prog σ α} {f : ℕ → α → Prog σ β} (hx : Returns st x s a s₁)
    (hf : EndsAs st (fun fuel => f fuel a) s₁ b s') :
    EndsAs st (fun fuel => x >>= f fuel) s b s' := (of_returns hx).bind hf

theorem unique {x : ℕ → Prog σ α} {s₂ : σ} (h : EndsAs st x s a s') (h' : EndsAs st x s a' s₂) :
    a = a' ∧ s' = s₂ := by
  obtain ⟨N, hN⟩ := h
  obtain ⟨M, hM⟩ := h'
  exact (hN (max N M) (Nat.le_max_left N M)).unique (hM (max N M) (Nat.le_max_right N M))

end EndsAs

namespace LoopEndsAs

variable {step : ℕ → β → Prog σ (Option β)}

theorem ends (h : LoopEndsAs st step b s r s') :
    EndsAs st (fun fuel => Prog.whileSome (step fuel) fuel b) s r s' := by
  obtain ⟨N, hN⟩ := h
  exact ⟨N, fun fuel hle => hN fuel fuel hle hle⟩

theorem stop (h : EndsAs st (fun fuel => step fuel b) s none s') : LoopEndsAs st step b s b s' := by
  obtain ⟨N, hN⟩ := h
  refine ⟨N + 1, fun fuel turns hf ht => ?_⟩
  obtain ⟨turns, rfl⟩ : ∃ k, turns = k + 1 := ⟨turns - 1, by omega⟩
  exact returns_whileSome_succ.mpr (Or.inl ⟨hN fuel (by omega), rfl⟩)

theorem next (h : EndsAs st (fun fuel => step fuel b) s (some b') s₁) (hr : LoopEndsAs st step b' s₁ r s') :
    LoopEndsAs st step b s r s' := by
  obtain ⟨N, hN⟩ := h
  obtain ⟨M, hM⟩ := hr
  refine ⟨max N M + 1, fun fuel turns hf ht => ?_⟩
  obtain ⟨turns, rfl⟩ : ∃ k, turns = k + 1 := ⟨turns - 1, by omega⟩
  exact returns_whileSome_succ.mpr (Or.inr ⟨b', s₁, hN fuel (by omega), hM fuel turns (by omega) (by omega)⟩)

end LoopEndsAs

/-- A loop each of whose turns leads to another one never returns. -/
theorem not_returns_whileSome {step : β → Prog σ (Option β)} {I : β → Prop} {n : ℕ}
    (hstep : ∀ b s o s', I b → Returns st (step b) s o s' → ∃ b', o = some b' ∧ I b') (hb : I b) :
    ¬ Returns st (Prog.whileSome step n b) s r s' := by
  induction n generalizing b s with
  | zero => exact returns_spin
  | succ n ih =>
    intro h
    rcases returns_whileSome_succ.mp h with ⟨hturn, _⟩ | ⟨b', s₁, hturn, hrest⟩
    · obtain ⟨_, hnone, _⟩ := hstep b s none s' hb hturn
      cases hnone
    · obtain ⟨_, hsome, hb'⟩ := hstep b s (some b') s₁ hb hturn
      cases hsome
      exact ih hb' hrest

theorem Ends.loosen {x : ℕ → Prog σ α} (h : Ends x s a s') : EndsAs false x s a s' := by
  obtain ⟨N, hN⟩ := h
  exact ⟨N, fun fuel hle => (hN fuel hle).loosen⟩

theorem Ends.of_returns {x : Prog σ α} (h : Returns true x s a s') : Ends (fun _ => x) s a s' := EndsAs.of_returns h

theorem Ends.bind {x : ℕ → Prog σ α} {f : ℕ → α → Prog σ β} (hx : Ends x s a s₁)
    (hf : Ends (fun fuel => f fuel a) s₁ b s') :
    Ends (fun fuel => x fuel >>= f fuel) s b s' := EndsAs.bind hx hf

theorem Ends.step {x : Prog σ α} {f : ℕ → α → Prog σ β} (hx : Returns true x s a s₁)
    (hf : Ends (fun fuel => f fuel a) s₁ b s') :
    Ends (fun fuel => x >>= f fuel) s b s' := EndsAs.step hx hf

namespace LoopEnds

variable {step : ℕ → β → Prog σ (Option β)}

theorem ends (h : LoopEnds step b s r s') : Ends (fun fuel => Prog.whileSome (step fuel) fuel b) s r s' :=
    LoopEndsAs.ends h

theorem stop (h : Ends (fun fuel => step fuel b) s none s') : LoopEnds step b s b s' := LoopEndsAs.stop h

theorem next (h : Ends (fun fuel => step fuel b) s (some b') s₁) (hr : LoopEnds step b' s₁ r s') :
    LoopEnds step b s r s' :=
  LoopEndsAs.next h hr

end LoopEnds

end Cezos.Lib
