import Cezos.Lib.Outcome

namespace Cezos.Lib

variable {σ τ ι α β : Type} {R : σ → τ → Prop} {strict : Bool}

/-- Whatever `x` returns, `y` returns as well from a related state, and leaves a related state behind. -/
def Forward (R : σ → τ → Prop) (x : Prog σ α) (y : Prog τ α) : Prop :=
  ∀ strict s t a s', R s t → Returns strict x s a s' → ∃ t', Returns strict y t a t' ∧ R s' t'

namespace Forward

theorem pure (a : α) : Forward R (Pure.pure a : Prog σ α) (Pure.pure a : Prog τ α) := by
  intro strict s t b s' hR hx
  obtain ⟨rfl, rfl⟩ := returns_pure.mp hx
  exact ⟨t, returns_pure.mpr ⟨rfl, rfl⟩, hR⟩

theorem bind {x : Prog σ α} {y : Prog τ α} {f : α → Prog σ β} {g : α → Prog τ β} (hx : Forward R x y)
    (hf : ∀ a, Forward R (f a) (g a)) : Forward R (x >>= f) (y >>= g) := by
  intro strict s t b s' hR hr
  obtain ⟨a, s₁, h₁, h₂⟩ := returns_bind.mp hr
  obtain ⟨t₁, k₁, hR₁⟩ := hx _ _ _ _ _ hR h₁
  obtain ⟨t', k₂, hR'⟩ := hf a _ _ _ _ _ hR₁ h₂
  exact ⟨t', returns_bind.mpr ⟨a, t₁, k₁, k₂⟩, hR'⟩

theorem ite {p : Prop} [Decidable p] {x x' : Prog σ α} {y y' : Prog τ α} (h : Forward R x y) (h' : Forward R x' y') :
    Forward R (if p then x else x') (if p then y else y') := by
  by_cases hp : p
  · rw [if_pos hp, if_pos hp]
    exact h
  · rw [if_neg hp, if_neg hp]
    exact h'

theorem spin {y : Prog τ α} : Forward R (Prog.spin : Prog σ α) y := fun _ _ _ _ _ _ hr => absurd hr returns_spin

theorem fault {y : Prog τ α} : Forward R (Prog.fault : Prog σ α) y := fun _ _ _ _ _ _ hr => absurd hr returns_fault

theorem check (b : Bool) : Forward R (Prog.check (fun _ => b)) (Prog.check (fun _ => b)) := by
  intro strict s t u s' hR hr
  obtain ⟨rfl, hb⟩ := returns_check.mp hr
  exact ⟨t, returns_check.mpr ⟨rfl, hb⟩, hR⟩

theorem forUp {body : ℕ → Prog σ Unit} {body' : ℕ → Prog τ Unit} (h : ∀ k, Forward R (body k) (body' k)) (i n : ℕ) :
    Forward R (Prog.forUp body i n) (Prog.forUp body' i n) := by
  induction n generalizing i with
  | zero => exact pure ()
  | succ n ih => exact bind (h i) (fun _ => ih (i + 1))

theorem whileSome {step : β → Prog σ (Option β)} {step' : β → Prog τ (Option β)}
    (h : ∀ b, Forward R (step b) (step' b)) {n m : ℕ} (hle : n ≤ m) (b : β) :
    Forward R (Prog.whileSome step n b) (Prog.whileSome step' m b) := by
  induction n generalizing m b with
  | zero => exact spin
  | succ n ih =>
    obtain ⟨m, rfl⟩ : ∃ k, m = k + 1 := ⟨m - 1, by omega⟩
    refine bind (h b) (fun r => ?_)
    cases r with
    | none => exact pure b
    | some b' => exact ih (by omega) b'

end Forward

/-- `x` runs with a local variable, which is gone when it ends. -/
def Prog.scope (i : ι) (x : Prog (σ × ι) α) : Prog σ (α × ι) := fun s =>
  match x (s, i) with
  | .ret a s' clean => .ret (a, s'.2) s'.1 clean
  | .errorLoop msg s' clean => .errorLoop msg s'.1 clean
  | .fault s' => .fault s'.1
  | .spin s' => .spin s'.1

theorem returns_scope {i : ι} {x : Prog (σ × ι) α} {s s' : σ} {r : α × ι} :
    Returns strict (Prog.scope i x) s r s' ↔ Returns strict x (s, i) r.1 (s', r.2) := by
  constructor
  · rintro ⟨c, h, hc⟩
    unfold Prog.scope at h
    cases hx : x (s, i) with
    | ret a t c' =>
      simp only [hx, Outcome.ret.injEq] at h
      obtain ⟨rfl, rfl, rfl⟩ := h
      exact ⟨c', hx, hc⟩
    | errorLoop msg t c' => simp [hx] at h
    | fault t => simp [hx] at h
    | spin t => simp [hx] at h
  · rintro ⟨c, h, hc⟩
    exact ⟨c, by simp only [Prog.scope, h], hc⟩

def Prog.zoom (get : τ → σ) (set : τ → σ → τ) (x : Prog σ α) : Prog τ α := fun t =>
  match x (get t) with
  | .ret a s clean => .ret a (set t s) clean
  | .errorLoop msg s clean => .errorLoop msg (set t s) clean
  | .fault s => .fault (set t s)
  | .spin s => .spin (set t s)

theorem returns_zoom {get : τ → σ} {set : τ → σ → τ} {x : Prog σ α} {t t' : τ} {a : α} :
    Returns strict (Prog.zoom get set x) t a t' ↔ ∃ s, Returns strict x (get t) a s ∧ t' = set t s := by
  constructor
  · rintro ⟨c, h, hc⟩
    unfold Prog.zoom at h
    cases hx : x (get t) with
    | ret b s c' =>
      simp only [hx, Outcome.ret.injEq] at h
      obtain ⟨rfl, rfl, rfl⟩ := h
      exact ⟨s, ⟨c', hx, hc⟩, rfl⟩
    | errorLoop msg s c' => simp [hx] at h
    | fault s => simp [hx] at h
    | spin s => simp [hx] at h
  · rintro ⟨s, ⟨c, h, hc⟩, rfl⟩
    exact ⟨c, by simp only [Prog.zoom, h], hc⟩

end Cezos.Lib
