import Cezos.Lib.Frames

namespace Cezos.Lib

variable {σ τ υ α β : Type} {I J : σ → Prop} {x : Prog σ α}

def Preserves (I : σ → Prop) (x : Prog σ α) : Prop := ∀ st s a s', I s → Returns st x s a s' → I s'

namespace Preserves

theorem of_frames {f : σ → τ} (h : Frames f x) (hI : ∀ s s', f s' = f s → I s → I s') : Preserves I x :=
  fun _ _ _ _ hs hr => hI _ _ (h _ _ _ _ hr) hs

theorem and (h : Preserves I x) (h' : Preserves J x) : Preserves (fun s => I s ∧ J s) x :=
  fun _ _ _ _ hs hr => ⟨h _ _ _ _ hs.1 hr, h' _ _ _ _ hs.2 hr⟩

theorem pure (a : α) : Preserves I (Pure.pure a : Prog σ α) := fun _ _ _ _ hs hr => (returns_pure.mp hr).2 ▸ hs

theorem read (g : σ → α) : Preserves I (Prog.read g) := fun _ _ _ _ hs hr => (returns_read.mp hr).2 ▸ hs

theorem check (p : σ → Bool) : Preserves I (Prog.check p) := fun _ _ _ _ hs hr => (returns_check.mp hr).1 ▸ hs

theorem modify {g : σ → σ} (h : ∀ s, I s → I (g s)) : Preserves I (Prog.modify g) := fun _ s _ _ hs hr => by
  rw [returns_modify.mp hr]
  exact h s hs

theorem spin : Preserves I (Prog.spin : Prog σ α) := fun _ _ _ _ _ hr => absurd hr returns_spin

theorem bind {g : α → Prog σ β} (hx : Preserves I x) (hg : ∀ a, Preserves I (g a)) : Preserves I (x >>= g) := by
  intro st s b s' hs hr
  obtain ⟨a, s₁, h₁, h₂⟩ := returns_bind.mp hr
  exact hg a _ _ _ _ (hx _ _ _ _ hs h₁) h₂

theorem read_bind {f : σ → α} {g : α → Prog σ β} (h : ∀ s, I s → Preserves I (g (f s))) :
    Preserves I (Prog.read f >>= g) := by
  intro st s b s' hs hr
  obtain ⟨a, s₁, h₁, h₂⟩ := returns_bind.mp hr
  obtain ⟨rfl, rfl⟩ := returns_read.mp h₁
  exact h s₁ hs _ _ _ _ hs h₂

theorem ite {p : Prop} [Decidable p] {y : Prog σ α} (hx : Preserves I x) (hy : Preserves I y) :
    Preserves I (if p then x else y) := by
  by_cases hp : p
  · rwa [if_pos hp]
  · rwa [if_neg hp]

theorem forUp {body : ℕ → Prog σ Unit} (h : ∀ k, Preserves I (body k)) (i n : ℕ) :
    Preserves I (Prog.forUp body i n) := by
  induction n generalizing i with
  | zero => exact .pure ()
  | succ n ih => exact (h i).bind (fun _ => ih (i + 1))

theorem whileSome {step : β → Prog σ (Option β)} (h : ∀ b, Preserves I (step b)) (n : ℕ) (b : β) :
    Preserves I (Prog.whileSome step n b) := by
  induction n generalizing b with
  | zero => exact .spin
  | succ n ih =>
    refine (h b).bind (fun r => ?_)
    cases r with
    | none => exact .pure b
    | some b' => exact ih b'

theorem zoom {get : υ → σ} {set : υ → σ → υ} {K : υ → Prop} (h : Preserves I x) (hI : ∀ t, K t → I (get t))
    (hK : ∀ t s, K t → I s → K (set t s)) : Preserves K (Prog.zoom get set x) := by
  intro st t a t' ht hr
  obtain ⟨s, hs, rfl⟩ := returns_zoom.mp hr
  exact hK t s ht (h _ _ _ _ (hI t ht) hs)

end Preserves

end Cezos.Lib
