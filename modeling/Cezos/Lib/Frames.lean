import Cezos.Lib.Keeps
import Cezos.Lib.Simulation
import Cezos.Lib.Trace

namespace Cezos.Lib

variable {σ τ υ ω α β : Type} {f : σ → τ} {x : Prog σ α}

def Frames (f : σ → τ) (x : Prog σ α) : Prop := ∀ st s a s', Returns st x s a s' → f s' = f s

namespace Frames

theorem of_keeps (h : Keeps f x) : Frames f x := fun _ _ _ _ hr => h.returns hr

theorem mono {g : σ → υ} (h : Frames f x) (hg : ∀ s s', f s' = f s → g s' = g s) : Frames g x :=
  fun _ s _ s' hr => hg s s' (h _ _ _ _ hr)

theorem pure (a : α) : Frames f (Pure.pure a : Prog σ α) := fun _ _ _ _ hr => congrArg f (returns_pure.mp hr).2

theorem read (g : σ → α) : Frames f (Prog.read g) := fun _ _ _ _ hr => congrArg f (returns_read.mp hr).2

theorem check (p : σ → Bool) : Frames f (Prog.check p) := fun _ _ _ _ hr => congrArg f (returns_check.mp hr).1

theorem modify {g : σ → σ} (h : ∀ s, f (g s) = f s) : Frames f (Prog.modify g) := fun _ s _ _ hr => by
  rw [returns_modify.mp hr, h]

theorem spin : Frames f (Prog.spin : Prog σ α) := fun _ _ _ _ hr => absurd hr returns_spin

theorem bind {g : α → Prog σ β} (hx : Frames f x) (hg : ∀ a, Frames f (g a)) : Frames f (x >>= g) := by
  intro st s b s' hr
  obtain ⟨a, s₁, h₁, h₂⟩ := returns_bind.mp hr
  exact (hg a _ _ _ _ h₂).trans (hx _ _ _ _ h₁)

theorem ite {p : Prop} [Decidable p] {y : Prog σ α} (hx : Frames f x) (hy : Frames f y) :
    Frames f (if p then x else y) := by
  by_cases hp : p
  · rwa [if_pos hp]
  · rwa [if_neg hp]

theorem forUp {body : ℕ → Prog σ Unit} (h : ∀ k, Frames f (body k)) (i n : ℕ) : Frames f (Prog.forUp body i n) := by
  induction n generalizing i with
  | zero => exact .pure ()
  | succ n ih => exact (h i).bind (fun _ => ih (i + 1))

theorem whileSome {step : β → Prog σ (Option β)} (h : ∀ b, Frames f (step b)) (n : ℕ) (b : β) :
    Frames f (Prog.whileSome step n b) := by
  induction n generalizing b with
  | zero => exact .spin
  | succ n ih =>
    refine (h b).bind (fun r => ?_)
    cases r with
    | none => exact .pure b
    | some b' => exact ih b'

theorem zoom {get : υ → σ} {set : υ → σ → υ} {g : υ → ω} (h : Frames f x) (hg : ∀ t s, f s = f (get t) →
    g (set t s) = g t) :
    Frames g (Prog.zoom get set x) := by
  intro st t a t' hr
  obtain ⟨s, hs, rfl⟩ := returns_zoom.mp hr
  exact hg t s (h _ _ _ _ hs)
end Frames

end Cezos.Lib
