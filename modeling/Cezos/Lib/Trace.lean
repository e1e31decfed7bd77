import Mathlib.Logic.Basic
import Mathlib.Tactic.Common

namespace Cezos.Lib

variable {σ ε : Type} {step step' : σ → ε → σ → Prop} {s s₁ s' : σ} {e : ε} {es fs : List ε} {I : σ → Prop}

/-- A run, with the list of what happened in its steps. -/
inductive Trace (step : σ → ε → σ → Prop) : σ → List ε → σ → Prop
  | nil (s : σ) : Trace step s [] s
  | cons {s s₁ s' : σ} {e : ε} {es : List ε} (head : step s e s₁) (tail : Trace step s₁ es s') :
      Trace step s (e :: es) s'

namespace Trace

@[simp] theorem nil_iff : Trace step s [] s' ↔ s' = s := by
  constructor
  · intro h
    cases h
    rfl
  · rintro rfl
    exact .nil s'

theorem cons_iff : Trace step s (e :: es) s' ↔ ∃ s₁, step s e s₁ ∧ Trace step s₁ es s' := by
  constructor
  · intro h
    cases h with
    | cons head tail => exact ⟨_, head, tail⟩
  · rintro ⟨s₁, head, tail⟩
    exact .cons head tail

theorem append_iff : Trace step s (es ++ fs) s' ↔ ∃ s₁, Trace step s es s₁ ∧ Trace step s₁ fs s' := by
  induction es generalizing s with
  | nil => simp
  | cons e es ih =>
    rw [List.cons_append, cons_iff]
    constructor
    · rintro ⟨s₁, he, h⟩
      obtain ⟨s₂, h₁, h₂⟩ := ih.mp h
      exact ⟨s₂, .cons he h₁, h₂⟩
    · rintro ⟨s₂, h₁, h₂⟩
      obtain ⟨s₁, he, h₁⟩ := cons_iff.mp h₁
      exact ⟨s₁, he, ih.mpr ⟨s₂, h₁, h₂⟩⟩

theorem single (h : step s e s') : Trace step s [e] s' := .cons h (.nil s')

theorem invariant (h : Trace step s es s') (hstep : ∀ s e s', e ∈ es → I s → step s e s' → I s') (hs : I s) :
    I s' := by
  induction h with
  | nil s => exact hs
  | cons head tail ih =>
    exact ih (fun s e s' he => hstep s e s' (List.mem_cons_of_mem _ he)) (hstep _ _ _ List.mem_cons_self hs head)

theorem mono (h : Trace step s es s') (hstep : ∀ s e s', step s e s' → step' s e s') : Trace step' s es s' := by
  induction h with
  | nil s => exact .nil s
  | cons head tail ih => exact .cons (hstep _ _ _ head) ih

end Trace

end Cezos.Lib
