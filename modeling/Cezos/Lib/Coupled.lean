import Cezos.Lib.Simulation

namespace Cezos.Lib

variable {σ τ α β : Type} {R : σ → τ → Prop}

/-- The two programs return the same from related states, and leave related states behind. -/
structure Coupled (R : σ → τ → Prop) (x : Prog σ α) (y : Prog τ α) : Prop where
  forward : Forward R x y
  backward : Forward (fun t s => R s t) y x

/-- `l` always returns, and its state stays related to the ones it was related to. -/
def Aside (R : σ → τ → Prop) (l : Prog τ Unit) : Prop := ∀ s t, R s t → ∃ t', Returns true l t () t' ∧ R s t'

theorem Returns.at {x : Prog σ α} {a : α} {s s' : σ} {strict : Bool} (h : Returns true x s a s') :
    Returns strict x s a s' := by
  obtain ⟨c, hx, hc⟩ := h
  exact ⟨c, hx, fun _ => hc rfl⟩

theorem Aside.bind {l l' : Prog τ Unit} (h : Aside R l) (h' : Aside R l') : Aside R (l >>= fun _ => l') := by
  intro s t hR
  obtain ⟨t₁, h₁, hR₁⟩ := h s t hR
  obtain ⟨t₂, h₂, hR₂⟩ := h' s t₁ hR₁
  exact ⟨t₂, returns_bind.mpr ⟨(), t₁, h₁, h₂⟩, hR₂⟩

namespace Coupled

theorem pure (a : α) : Coupled R (Pure.pure a : Prog σ α) (Pure.pure a : Prog τ α) := ⟨.pure a, .pure a⟩

theorem errorLoop (msg : String) : Coupled R (Prog.errorLoop msg : Prog σ α) (Prog.errorLoop msg : Prog τ α) :=
  ⟨fun _ _ _ _ _ _ hr => absurd hr returns_errorLoop, fun _ _ _ _ _ _ hr => absurd hr returns_errorLoop⟩

theorem bind {x : Prog σ α} {y : Prog τ α} {f : α → Prog σ β} {g : α → Prog τ β} (hx : Coupled R x y)
    (hf : ∀ a, Coupled R (f a) (g a)) : Coupled R (x >>= f) (y >>= g) :=
  ⟨hx.forward.bind (fun a => (hf a).forward), hx.backward.bind (fun a => (hf a).backward)⟩

theorem ite {p : Prop} [Decidable p] {x x' : Prog σ α} {y y' : Prog τ α} (h : Coupled R x y)
    (h' : Coupled R x' y') : Coupled R (if p then x else x') (if p then y else y') :=
  ⟨h.forward.ite h'.forward, h.backward.ite h'.backward⟩

theorem forUp {body : ℕ → Prog σ Unit} {body' : ℕ → Prog τ Unit} (h : ∀ k, Coupled R (body k) (body' k)) (i n : ℕ) :
    Coupled R (Prog.forUp body i n) (Prog.forUp body' i n) :=
  ⟨.forUp (fun k => (h k).forward) i n, .forUp (fun k => (h k).backward) i n⟩

theorem whileSome {step : β → Prog σ (Option β)} {step' : β → Prog τ (Option β)}
    (h : ∀ b, Coupled R (step b) (step' b)) (n : ℕ) (b : β) : Coupled R (Prog.whileSome step n b) (Prog.whileSome step' n b) :=
  ⟨.whileSome (fun b => (h b).forward) (Nat.le_refl n) b, .whileSome (fun b => (h b).backward) (Nat.le_refl n) b⟩

theorem read {f : σ → α} {g : τ → α} (h : ∀ s t, R s t → f s = g t) : Coupled R (Prog.read f) (Prog.read g) := by
  constructor
  · intro strict s t a s' hR hr
    obtain ⟨rfl, rfl⟩ := returns_read.mp hr
    exact ⟨t, returns_read.mpr ⟨h _ _ hR, rfl⟩, hR⟩
  · intro strict t s a t' hR hr
    obtain ⟨rfl, rfl⟩ := returns_read.mp hr
    exact ⟨s, returns_read.mpr ⟨(h _ _ hR).symm, rfl⟩, hR⟩

theorem modify {f : σ → σ} {g : τ → τ} (h : ∀ s t, R s t → R (f s) (g t)) :
    Coupled R (Prog.modify f) (Prog.modify g) := by
  constructor
  · intro strict s t a s' hR hr
    obtain rfl := returns_modify.mp hr
    exact ⟨_, returns_modify.mpr rfl, h _ _ hR⟩
  · intro strict t s a t' hR hr
    obtain rfl := returns_modify.mp hr
    exact ⟨_, returns_modify.mpr rfl, h _ _ hR⟩

theorem check {p : σ → Bool} {q : τ → Bool} (h : ∀ s t, R s t → p s = q t) :
    Coupled R (Prog.check p) (Prog.check q) := by
  constructor
  · intro strict s t a s' hR hr
    obtain ⟨rfl, hp⟩ := returns_check.mp hr
    exact ⟨t, returns_check.mpr ⟨rfl, fun hs => (h _ _ hR).symm.trans (hp hs)⟩, hR⟩
  · intro strict t s a t' hR hr
    obtain ⟨rfl, hq⟩ := returns_check.mp hr
    exact ⟨s, returns_check.mpr ⟨rfl, fun hs => (h _ _ hR).trans (hq hs)⟩, hR⟩

theorem before {x : Prog σ α} {y : Prog τ α} {l : Prog τ Unit} (hl : Aside R l) (h : Coupled R x y) :
    Coupled R x (l >>= fun _ => y) := by
  constructor
  · intro strict s t a s' hR hr
    obtain ⟨t₁, h₁, hR₁⟩ := hl s t hR
    obtain ⟨t', ht, hR'⟩ := h.forward _ _ _ _ _ hR₁ hr
    exact ⟨t', returns_bind.mpr ⟨(), t₁, h₁.at, ht⟩, hR'⟩
  · intro strict t s a t' hR hr
    obtain ⟨t₁, h₁, hR₁⟩ := hl s t hR
    obtain ⟨_, _, h₁', hrest⟩ := returns_bind.mp hr
    obtain ⟨_, rfl⟩ := h₁.unique h₁'
    exact h.backward _ _ _ _ _ hR₁ hrest

theorem after {x : Prog σ α} {y : Prog τ α} {l : Prog τ Unit} (hl : Aside R l) (h : Coupled R x y) :
    Coupled R x (y >>= fun a => l >>= fun _ => Pure.pure a) := by
  constructor
  · intro strict s t a s' hR hr
    obtain ⟨t₁, h₁, hR₁⟩ := h.forward _ _ _ _ _ hR hr
    obtain ⟨t₂, h₂, hR₂⟩ := hl s' t₁ hR₁
    exact ⟨t₂, returns_bind.mpr ⟨a, t₁, h₁, returns_bind.mpr ⟨(), t₂, h₂.at, returns_pure.mpr ⟨rfl, rfl⟩⟩⟩, hR₂⟩
  · intro strict t s a t' hR hr
    obtain ⟨b, t₁, h₁, hrest⟩ := returns_bind.mp hr
    obtain ⟨_, t₂, h₂, hpure⟩ := returns_bind.mp hrest
    obtain ⟨rfl, rfl⟩ := returns_pure.mp hpure
    obtain ⟨s', hs, hR₁⟩ := h.backward _ _ _ _ _ hR h₁
    obtain ⟨t₃, h₃, hR₂⟩ := hl s' t₁ hR₁
    obtain ⟨_, rfl⟩ := h₃.unique h₂
    exact ⟨s', hs, hR₂⟩

theorem last {x : Prog σ Unit} {y l : Prog τ Unit} (hl : Aside R l) (h : Coupled R x y) :
    Coupled R x (y >>= fun _ => l) := by
  constructor
  · intro strict s t a s' hR hr
    obtain ⟨t₁, h₁, hR₁⟩ := h.forward _ _ _ _ _ hR hr
    obtain ⟨t₂, h₂, hR₂⟩ := hl s' t₁ hR₁
    exact ⟨t₂, returns_bind.mpr ⟨(), t₁, h₁, h₂.at⟩, hR₂⟩
  · intro strict t s a t' hR hr
    obtain ⟨_, t₁, h₁, hlast⟩ := returns_bind.mp hr
    obtain ⟨s', hs, hR₁⟩ := h.backward _ _ _ _ _ hR h₁
    obtain ⟨t₂, h₂, hR₂⟩ := hl s' t₁ hR₁
    obtain ⟨_, rfl⟩ := h₂.unique hlast
    exact ⟨s', hs, hR₂⟩

end Coupled

end Cezos.Lib
