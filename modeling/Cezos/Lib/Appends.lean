import Cezos.Lib.Keeps
import Cezos.Lib.Trace

namespace Cezos.Lib

variable {σ α β γ : Type} {I : σ → Prop} {f : σ → List γ} {out out' : List γ}

/-- From a state in `I` the call `x` returns to one in `I`, and has appended `out` to what `f` shows. -/
def Appends (I : σ → Prop) (f : σ → List γ) (x : Prog σ α) (out : List γ) : Prop :=
  ∀ s, I s → ∃ a s', Returns false x s a s' ∧ I s' ∧ f s' = f s ++ out

namespace Appends

theorem pure (a : α) : Appends I f (Pure.pure a : Prog σ α) [] := fun s hs =>
  ⟨a, s, returns_pure.mpr ⟨rfl, rfl⟩, hs, (List.append_nil _).symm⟩

theorem read (g : σ → α) : Appends I f (Prog.read g) [] := fun s hs =>
  ⟨g s, s, returns_read.mpr ⟨rfl, rfl⟩, hs, (List.append_nil _).symm⟩

theorem check (p : σ → Bool) : Appends I f (Prog.check p) [] := fun s hs =>
  ⟨(), s, returns_check.mpr ⟨rfl, nofun⟩, hs, (List.append_nil _).symm⟩

theorem modify {g : σ → σ} (hI : ∀ s, I s → I (g s)) (hf : ∀ s, f (g s) = f s ++ out) :
    Appends I f (Prog.modify g) out :=
  fun s hs => ⟨(), g s, returns_modify.mpr rfl, hI s hs, hf s⟩

theorem bind {x : Prog σ α} {g : α → Prog σ β} (hx : Appends I f x out) (hg : ∀ a, Appends I f (g a) out') :
    Appends I f (x >>= g) (out ++ out') := by
  intro s hs
  obtain ⟨a, s₁, h₁, hI₁, hf₁⟩ := hx s hs
  obtain ⟨b, s₂, h₂, hI₂, hf₂⟩ := hg a s₁ hI₁
  exact ⟨b, s₂, returns_bind.mpr ⟨a, s₁, h₁, h₂⟩, hI₂, by rw [hf₂, hf₁, List.append_assoc]⟩

theorem quiet {x : Prog σ α} {g : α → Prog σ β} (hx : Appends I f x []) (hg : ∀ a, Appends I f (g a) out) :
    Appends I f (x >>= g) out := hx.bind hg

theorem read_bind {g : σ → Prog σ β} (h : ∀ s, I s → Appends I f (g s) out) :
    Appends I f (Prog.read id >>= g) out := by
  intro s hs
  obtain ⟨b, s', hr, hI, hf⟩ := h s hs s hs
  exact ⟨b, s', returns_bind.mpr ⟨s, s, returns_read.mpr ⟨rfl, rfl⟩, hr⟩, hI, hf⟩

theorem ite {p : Prop} [Decidable p] {x y : Prog σ α} (hx : Appends I f x out) (hy : Appends I f y out) :
    Appends I f (if p then x else y) out := by
  by_cases hp : p
  · rwa [if_pos hp]
  · rwa [if_neg hp]

theorem forUp {body : ℕ → Prog σ Unit} (h : ∀ k, Appends I f (body k) []) (i n : ℕ) :
    Appends I f (Prog.forUp body i n) [] := by
  induction n generalizing i with
  | zero => exact .pure ()
  | succ n ih => exact (h i).quiet (fun _ => ih (i + 1))

theorem of_keeps {τ : Type} {g : σ → τ} {x : Prog σ α} (hx : Keeps g x) (hI : ∀ s s', g s' = g s → I s → I s')
    (hf : ∀ s s', g s' = g s → f s' = f s) : Appends I f x [] := by
  intro s hs
  obtain ⟨a, s', hr, hg⟩ := hx s
  exact ⟨a, s', hr.loosen, hI s s' hg hs, by rw [hf s s' hg, List.append_nil]⟩

theorem run {ε : Type} {x : ε → Prog σ Unit} {out : ε → List γ} (h : ∀ e, Appends I f (x e) (out e)) {s : σ}
    (hs : I s)
    (es : List ε) : (∃ s', Trace (fun s e s' => Returns false (x e) s () s') s es s') ∧
      ∀ s', Trace (fun s e s' => Returns false (x e) s () s') s es s' → I s' ∧ f s' = f s ++ es.flatMap out := by
  induction es generalizing s with
  | nil =>
    refine ⟨⟨s, .nil s⟩, fun s' hrun => ?_⟩
    rw [Trace.nil_iff.mp hrun, List.flatMap_nil, List.append_nil]
    exact ⟨hs, rfl⟩
  | cons e es ih =>
    obtain ⟨_, s₁, hone, hI, hf⟩ := h e s hs
    obtain ⟨⟨s₂, hrest⟩, hall⟩ := ih hI
    refine ⟨⟨s₂, .cons hone hrest⟩, fun s' hrun => ?_⟩
    obtain ⟨s₁', hone', hrest'⟩ := Trace.cons_iff.mp hrun
    obtain ⟨_, rfl⟩ := hone'.unique hone
    obtain ⟨hI', hf'⟩ := hall s' hrest'
    exact ⟨hI', by rw [hf', hf, List.flatMap_cons, List.append_assoc]⟩

end Appends

end Cezos.Lib
