import Mathlib.Logic.Basic
import Mathlib.Tactic.Common

namespace Cezos.Lib

/-- How a call ends; the last three never return. The flag stays `true` as long as every access of the call was a
good one. -/
inductive Outcome (σ α : Type) where
  | ret (a : α) (s : σ) (clean : Bool)
  | errorLoop (msg : String) (s : σ) (clean : Bool)
  | fault (s : σ)
  | spin (s : σ)

namespace Outcome

variable {σ α : Type}

def state : Outcome σ α → σ
  | ret _ s _ => s
  | errorLoop _ s _ => s
  | fault s => s
  | spin s => s

def returned : Outcome σ α → Option (α × Bool)
  | ret a _ clean => some (a, clean)
  | _ => none

end Outcome

def Prog (σ α : Type) := σ → Outcome σ α

namespace Prog

variable {σ α β : Type}

def pure (a : α) : Prog σ α := fun s => .ret a s true

def bind (x : Prog σ α) (f : α → Prog σ β) : Prog σ β := fun s =>
  match x s with
  | .ret a s₁ c₁ =>
    match f a s₁ with
    | .ret b s₂ c₂ => .ret b s₂ (c₁ && c₂)
    | .errorLoop msg s₂ c₂ => .errorLoop msg s₂ (c₁ && c₂)
    | .fault s₂ => .fault s₂
    | .spin s₂ => .spin s₂
  | .errorLoop msg s₁ c₁ => .errorLoop msg s₁ c₁
  | .fault s₁ => .fault s₁
  | .spin s₁ => .spin s₁

instance : Monad (Prog σ) where
  pure := Prog.pure
  bind := Prog.bind

def read (f : σ → α) : Prog σ α := fun s => .ret (f s) s true

def modify (f : σ → σ) : Prog σ Unit := fun s => .ret () (f s) true

def check (p : σ → Bool) : Prog σ Unit := fun s => .ret () s (p s)

def errorLoop (msg : String) : Prog σ α := fun s => .errorLoop msg s true

def fault : Prog σ α := fun s => .fault s

def spin : Prog σ α := fun s => .spin s

/-- `for (i = lo; i < lo + n; ++i) body(i)` -/
def forUp (body : ℕ → Prog σ Unit) : ℕ → ℕ → Prog σ Unit
  | _, 0 => Prog.pure ()
  | i, n + 1 => Prog.bind (body i) (fun _ => forUp body (i + 1) n)

/-- A `while` loop over a local variable: `step` answers the next value, or `none` to leave. More than
`fuel` turns count as running forever. -/
def whileSome (step : β → Prog σ (Option β)) : ℕ → β → Prog σ β
  | 0, _ => spin
  | n + 1, b => Prog.bind (step b) (fun r => match r with
    | none => Prog.pure b
    | some b' => whileSome step n b')

end Prog

section Laws

variable {σ α β γ : Type}

theorem Prog.pure_bind {a : α} {f : α → Prog σ β} : (Pure.pure a >>= f) = f a := by
  funext s
  change Prog.bind (Prog.pure a) f s = _
  simp only [Prog.bind, Prog.pure]
  cases f a s <;> rfl

theorem Prog.bind_pure {x : Prog σ α} : (x >>= fun a => Pure.pure a) = x := by
  funext s
  change Prog.bind x Prog.pure s = _
  unfold Prog.bind Prog.pure
  cases x s with
  | ret a s₁ c => simp only [Bool.and_true]
  | errorLoop msg s₁ c => rfl
  | fault s₁ => rfl
  | spin s₁ => rfl

theorem Prog.bind_assoc {x : Prog σ α} {f : α → Prog σ β} {g : β → Prog σ γ} :
    (x >>= f >>= g) = x >>= fun a => f a >>= g := by
  funext s
  change Prog.bind (Prog.bind x f) g s = Prog.bind x (fun a => Prog.bind (f a) g) s
  unfold Prog.bind
  cases x s with
  | ret a s₁ c₁ =>
    simp only
    cases f a s₁ with
    | ret b s₂ c₂ =>
      simp only
      cases g b s₂ <;> simp only [Bool.and_assoc]
    | errorLoop msg s₂ c₂ => rfl
    | fault s₂ => rfl
    | spin s₂ => rfl
  | errorLoop msg s₁ c₁ => rfl
  | fault s₁ => rfl
  | spin s₁ => rfl

end Laws

/-- `Returns strict x s a s'`: from `s` the call `x` returns `a` in state `s'`, and when `strict` is set
every access on the way was a good one. -/
def Returns {σ α : Type} (strict : Bool) (x : Prog σ α) (s : σ) (a : α) (s' : σ) : Prop :=
  ∃ clean, x s = .ret a s' clean ∧ (strict = true → clean = true)

section Rules

variable {σ α β : Type} {strict : Bool} {s s' : σ}

theorem Returns.loosen {x : Prog σ α} {a : α} (h : Returns strict x s a s') : Returns false x s a s' := by
  obtain ⟨c, hx, _⟩ := h
  exact ⟨c, hx, by simp⟩

theorem Returns.of_eval {x : Prog σ α} {a : α} (h : (x s).returned = some (a, true)) :
    Returns strict x s a (x s).state := by
  cases hx : x s with
  | ret b s₁ c =>
    rw [hx, Outcome.returned, Option.some.injEq, Prod.mk.injEq] at h
    exact ⟨c, by rw [hx, Outcome.state, h.1], fun _ => h.2⟩
  | errorLoop msg s₁ c => simp [hx, Outcome.returned] at h
  | fault s₁ => simp [hx, Outcome.returned] at h
  | spin s₁ => simp [hx, Outcome.returned] at h

theorem Returns.unique {x : Prog σ α} {a b : α} {s₁ s₂ : σ} {st₁ st₂ : Bool}
    (h : Returns st₁ x s a s₁) (h' : Returns st₂ x s b s₂) : a = b ∧ s₁ = s₂ := by
  obtain ⟨c, hx, _⟩ := h
  obtain ⟨c', hx', _⟩ := h'
  rw [hx] at hx'
  cases hx'
  exact ⟨rfl, rfl⟩

@[simp] theorem returns_pure {a b : α} : Returns strict (pure a : Prog σ α) s b s' ↔ b = a ∧ s' = s := by
  constructor
  · rintro ⟨c, h, _⟩
    cases h
    exact ⟨rfl, rfl⟩
  · rintro ⟨rfl, rfl⟩
    exact ⟨true, rfl, fun _ => rfl⟩

@[simp] theorem returns_read {f : σ → α} {b : α} :
    Returns strict (Prog.read f) s b s' ↔ b = f s ∧ s' = s := by
  constructor
  · rintro ⟨c, h, _⟩
    cases h
    exact ⟨rfl, rfl⟩
  · rintro ⟨rfl, rfl⟩
    exact ⟨true, rfl, fun _ => rfl⟩

@[simp] theorem returns_modify {f : σ → σ} {u : Unit} :
    Returns strict (Prog.modify f) s u s' ↔ s' = f s := by
  constructor
  · rintro ⟨c, h, _⟩
    cases h
    rfl
  · rintro rfl
    exact ⟨true, rfl, fun _ => rfl⟩

@[simp] theorem returns_check {p : σ → Bool} {u : Unit} :
    Returns strict (Prog.check p) s u s' ↔ s' = s ∧ (strict = true → p s = true) := by
  constructor
  · rintro ⟨c, h, hc⟩
    cases h
    exact ⟨rfl, hc⟩
  · rintro ⟨rfl, hc⟩
    exact ⟨p s', rfl, hc⟩

@[simp] theorem returns_errorLoop {msg : String} {a : α} :
    ¬ Returns strict (Prog.errorLoop msg : Prog σ α) s a s' := by
  rintro ⟨c, h, _⟩
  cases h

@[simp] theorem returns_fault {a : α} : ¬ Returns strict (Prog.fault : Prog σ α) s a s' := by
  rintro ⟨c, h, _⟩
  cases h

@[simp] theorem returns_spin {a : α} : ¬ Returns strict (Prog.spin : Prog σ α) s a s' := by
  rintro ⟨c, h, _⟩
  cases h

theorem returns_bind {x : Prog σ α} {f : α → Prog σ β} {b : β} :
    Returns strict (x >>= f) s b s' ↔
      ∃ a s₁, Returns strict x s a s₁ ∧ Returns strict (f a) s₁ b s' := by
  constructor
  · rintro ⟨c, h, hc⟩
    change Prog.bind x f s = _ at h
    unfold Prog.bind at h
    cases hx : x s with
    | ret a s₁ c₁ =>
      simp only [hx] at h
      cases hf : f a s₁ with
      | ret b' s₂ c₂ =>
        simp only [hf, Outcome.ret.injEq] at h
        obtain ⟨rfl, rfl, rfl⟩ := h
        simp only [Bool.and_eq_true] at hc
        exact ⟨a, s₁, ⟨c₁, hx, fun hs => (hc hs).1⟩, ⟨c₂, hf, fun hs => (hc hs).2⟩⟩
      | errorLoop msg s₂ c₂ => simp [hf] at h
      | fault s₂ => simp [hf] at h
      | spin s₂ => simp [hf] at h
    | errorLoop msg s₁ c => simp [hx] at h
    | fault s₁ => simp [hx] at h
    | spin s₁ => simp [hx] at h
  · rintro ⟨a, s₁, ⟨c₁, hx, h₁⟩, ⟨c₂, hf, h₂⟩⟩
    refine ⟨c₁ && c₂, ?_, fun hs => by rw [h₁ hs, h₂ hs]; rfl⟩
    change Prog.bind x f s = _
    simp only [Prog.bind, hx, hf]

theorem bind_clean {x : Prog σ α} {f : α → Prog σ β} {a : α} {s₁ : σ} (h : x s = .ret a s₁ true) :
    (x >>= f) s = f a s₁ := by
  change Prog.bind x f s = _
  simp only [Prog.bind, h]
  cases f a s₁ <;> rfl

theorem returns_bind_of {x : Prog σ α} {f : α → Prog σ β} {b : β} {a : α} {t : σ} {p : Prop}
    (hx : ∀ a' t', Returns strict x s a' t' ↔ p ∧ a' = a ∧ t' = t) :
    Returns strict (x >>= f) s b s' ↔ p ∧ Returns strict (f a) t b s' := by
  simp only [returns_bind, hx]
  constructor
  · rintro ⟨_, _, ⟨hp, rfl, rfl⟩, h⟩
    exact ⟨hp, h⟩
  · rintro ⟨hp, h⟩
    exact ⟨a, t, ⟨hp, rfl, rfl⟩, h⟩

@[simp] theorem returns_ite {p : Prop} [Decidable p] {x y : Prog σ α} {a : α} :
    Returns strict (if p then x else y) s a s' ↔
      (p ∧ Returns strict x s a s') ∨ (¬ p ∧ Returns strict y s a s') := by
  by_cases hp : p <;> simp [hp]

theorem returns_forUp_zero {body : ℕ → Prog σ Unit} {i : ℕ} {u : Unit} :
    Returns strict (Prog.forUp body i 0) s u s' ↔ s' = s := by
  change Returns strict (pure () : Prog σ Unit) s u s' ↔ _
  simp

theorem returns_forUp_succ {body : ℕ → Prog σ Unit} {i n : ℕ} {u : Unit} :
    Returns strict (Prog.forUp body i (n + 1)) s u s' ↔
      ∃ s₁, Returns strict (body i) s () s₁ ∧ Returns strict (Prog.forUp body (i + 1) n) s₁ u s' := by
  change Returns strict (body i >>= fun _ => Prog.forUp body (i + 1) n) s u s' ↔ _
  rw [returns_bind]
  exact ⟨fun ⟨_, s₁, h⟩ => ⟨s₁, h⟩, fun ⟨s₁, h⟩ => ⟨(), s₁, h⟩⟩

theorem returns_whileSome_succ {step : β → Prog σ (Option β)} {n : ℕ} {b r : β} :
    Returns strict (Prog.whileSome step (n + 1) b) s r s' ↔
      (Returns strict (step b) s none s' ∧ r = b) ∨
        ∃ b' s₁, Returns strict (step b) s (some b') s₁ ∧ Returns strict (Prog.whileSome step n b') s₁ r s' := by
  change Returns strict (step b >>= fun o => match o with
    | none => (pure b : Prog σ β)
    | some b' => Prog.whileSome step n b') s r s' ↔ _
  rw [returns_bind]
  constructor
  · rintro ⟨o, s₁, h₁, h₂⟩
    cases o with
    | none =>
      obtain ⟨rfl, rfl⟩ := returns_pure.mp h₂
      exact Or.inl ⟨h₁, rfl⟩
    | some b' => exact Or.inr ⟨b', s₁, h₁, h₂⟩
  · rintro (⟨h, rfl⟩ | ⟨b', s₁, h₁, h₂⟩)
    · exact ⟨none, s', h, returns_pure.mpr ⟨rfl, rfl⟩⟩
    · exact ⟨some b', s₁, h₁, h₂⟩

theorem forUp_invariant {body : ℕ → Prog σ Unit} {I : ℕ → σ → Prop} {i n : ℕ} {u : Unit}
    (step : ∀ k s s₁, i ≤ k → k < i + n → I k s → Returns strict (body k) s () s₁ → I (k + 1) s₁)
    (h : Returns strict (Prog.forUp body i n) s u s') (hi : I i s) : I (i + n) s' := by
  induction n generalizing i s with
  | zero =>
    rw [returns_forUp_zero.mp h]
    exact hi
  | succ n ih =>
    obtain ⟨s₁, hb, hr⟩ := returns_forUp_succ.mp h
    have h₁ := step i s s₁ (Nat.le_refl _) (by omega) hi hb
    have := ih (fun k s s₁ hk hk' => step k s s₁ (by omega) (by omega)) hr h₁
    rwa [show i + (n + 1) = i + 1 + n by omega]

theorem forUp_returns {body : ℕ → Prog σ Unit} {I : ℕ → σ → Prop} {i n : ℕ}
    (step : ∀ k s, i ≤ k → k < i + n → I k s → ∃ s₁, Returns strict (body k) s () s₁ ∧ I (k + 1) s₁)
    (hi : I i s) : ∃ s', Returns strict (Prog.forUp body i n) s () s' ∧ I (i + n) s' := by
  induction n generalizing i s with
  | zero => exact ⟨s, returns_forUp_zero.mpr rfl, hi⟩
  | succ n ih =>
    obtain ⟨s₁, hb, h₁⟩ := step i s (Nat.le_refl _) (by omega) hi
    obtain ⟨s₂, hr, h₂⟩ := ih (fun k s hk hk' => step k s (by omega) (by omega)) h₁
    exact ⟨s₂, returns_forUp_succ.mpr ⟨s₁, hb, hr⟩, by rwa [show i + (n + 1) = i + 1 + n by omega]⟩

theorem returns_forUp_test {body : ℕ → Prog σ Unit} {p : ℕ → Prop} {i n : ℕ} {u : Unit}
    (hb : ∀ k, i ≤ k → k < i + n → ∀ s₁, Returns strict (body k) s () s₁ ↔ s₁ = s ∧ p k) :
    Returns strict (Prog.forUp body i n) s u s' ↔ s' = s ∧ ∀ k, i ≤ k → k < i + n → p k := by
  induction n generalizing i with
  | zero =>
    rw [returns_forUp_zero]
    exact ⟨fun h => ⟨h, fun k h₁ h₂ => by omega⟩, fun h => h.1⟩
  | succ n ih =>
    rw [returns_forUp_succ]
    have ih' := ih (i := i + 1) (fun k h₁ h₂ => hb k (by omega) (by omega))
    constructor
    · rintro ⟨s₁, h₁, h₂⟩
      obtain ⟨rfl, hp⟩ := (hb i (Nat.le_refl _) (by omega) s₁).mp h₁
      obtain ⟨rfl, hq⟩ := ih'.mp h₂
      refine ⟨rfl, fun k hk hk' => ?_⟩
      rcases Nat.eq_or_lt_of_le hk with rfl | hlt
      · exact hp
      · exact hq k (by omega) (by omega)
    · rintro ⟨rfl, hp⟩
      exact ⟨s', (hb i (Nat.le_refl _) (by omega) s').mpr ⟨rfl, hp i (Nat.le_refl _) (by omega)⟩,
        ih'.mpr ⟨rfl, fun k hk hk' => hp k (by omega) (by omega)⟩⟩

theorem returns_ret {x : Prog σ α} {a : α} {c : Bool} (h : x s = .ret a s' c) : Returns false x s a s' :=
  ⟨c, h, by simp⟩

end Rules

def Loops {σ α : Type} (x : Prog σ α) (s : σ) (msg : String) (s' : σ) : Prop :=
  ∃ clean, x s = .errorLoop msg s' clean

def Faults {σ α : Type} (x : Prog σ α) (s s' : σ) : Prop := x s = .fault s'

section Ends

variable {σ α β : Type} {s s' : σ} {msg : String}

theorem loops_bind {x : Prog σ α} {f : α → Prog σ β} : Loops (x >>= f) s msg s' ↔
    Loops x s msg s' ∨ ∃ a s₁, Returns false x s a s₁ ∧ Loops (f a) s₁ msg s' := by
  change (∃ clean, Prog.bind x f s = _) ↔ _
  unfold Prog.bind Loops
  constructor
  · rintro ⟨c, h⟩
    cases hx : x s with
    | ret a s₁ c₁ =>
      refine Or.inr ⟨a, s₁, returns_ret hx, ?_⟩
      simp only [hx] at h
      cases hf : f a s₁ <;> simp_all
    | errorLoop msg s₁ c₁ =>
      simp only [hx, Outcome.errorLoop.injEq] at h
      exact Or.inl ⟨c₁, by rw [h.1, h.2.1]⟩
    | fault s₁ => simp [hx] at h
    | spin s₁ => simp [hx] at h
  · rintro (⟨c, h⟩ | ⟨a, s₁, ⟨c, hx, _⟩, c', h⟩)
    · exact ⟨c, by simp only [h]⟩
    · exact ⟨c && c', by simp only [hx, h]⟩

@[simp] theorem loops_read {f : σ → α} : ¬ Loops (Prog.read f) s msg s' := by
  rintro ⟨_, h⟩
  cases h

@[simp] theorem loops_modify {f : σ → σ} : ¬ Loops (Prog.modify f) s msg s' := by
  rintro ⟨_, h⟩
  cases h

@[simp] theorem loops_errorLoop {msg' : String} :
    Loops (Prog.errorLoop msg' : Prog σ α) s msg s' ↔ msg = msg' ∧ s' = s := by
  constructor
  · rintro ⟨_, h⟩
    cases h
    exact ⟨rfl, rfl⟩
  · rintro ⟨rfl, rfl⟩
    exact ⟨true, rfl⟩

@[simp] theorem loops_ite {p : Prop} [Decidable p] {x y : Prog σ α} :
    Loops (if p then x else y) s msg s' ↔ (p ∧ Loops x s msg s') ∨ (¬ p ∧ Loops y s msg s') := by
  by_cases hp : p <;> simp [hp]

theorem Loops.not_returns {x : Prog σ α} {strict : Bool} {a : α} {t : σ} (h : Loops x s msg s') :
    ¬ Returns strict x s a t := by
  obtain ⟨_, h⟩ := h
  rintro ⟨c, hx, _⟩
  rw [h] at hx
  cases hx

theorem Faults.not_returns {x : Prog σ α} {strict : Bool} {a : α} {t : σ} (h : Faults x s s') :
    ¬ Returns strict x s a t := by
  rintro ⟨c, hx, _⟩
  rw [h] at hx
  cases hx

theorem Faults.not_loops {x : Prog σ α} {t : σ} (h : Faults x s s') : ¬ Loops x s msg t := by
  rintro ⟨_, hx⟩
  rw [h] at hx
  cases hx

theorem errorLoop_head {x : Prog σ α} {f : α → Prog σ β} {c : Bool} (h : x s = .errorLoop msg s' c) :
    (x >>= f) s = .errorLoop msg s' c := by
  change Prog.bind x f s = _
  simp only [Prog.bind, h]

theorem errorLoop_tail {x : Prog σ α} {f : α → Prog σ β} {a : α} {s₁ : σ} {c c' : Bool} (hx : x s = .ret a s₁ c)
    (h : f a s₁ = .errorLoop msg s' c') : (x >>= f) s = .errorLoop msg s' (c && c') := by
  change Prog.bind x f s = _
  simp only [Prog.bind, hx, h]

theorem faults_fault : Faults (Prog.fault : Prog σ α) s s := rfl

theorem Faults.head {x : Prog σ α} {f : α → Prog σ β} (h : Faults x s s') : Faults (x >>= f) s s' := by
  change Prog.bind x f s = _
  simp only [Prog.bind, Faults] at h ⊢
  simp only [h]

theorem Faults.tail {x : Prog σ α} {f : α → Prog σ β} {a : α} {s₁ : σ} {strict : Bool} (hx : Returns strict x s a s₁)
    (h : Faults (f a) s₁ s') : Faults (x >>= f) s s' := by
  obtain ⟨c, hx, _⟩ := hx
  change Prog.bind x f s = _
  simp only [Prog.bind, Faults] at h ⊢
  simp only [hx, h]

end Ends

end Cezos.Lib
