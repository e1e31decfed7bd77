import Mathlib.Tactic.Common

/-!
A translation buffer that may take in, at any moment, any translation of the structure in force, and that
loses an entry only when it is told to.
-/

namespace Cezos.Lib

/-- `holds v e`: the buffer has the translation `e` of the page `v`. -/
structure Tlb (V E : Type) where
  holds : V → E → Bool

namespace Tlb

variable {V E : Type}

def empty : Tlb V E := ⟨fun _ _ => false⟩

def drop [DecidableEq V] (t : Tlb V E) (v : V) : Tlb V E := ⟨fun v' e => v' != v && t.holds v' e⟩

def fill [DecidableEq E] (t : Tlb V E) (pick : V → Bool) (walk : V → Option E) : Tlb V E :=
  ⟨fun v e => t.holds v e || (pick v && walk v == some e)⟩

def CoherentOff (t : Tlb V E) (X : V → Prop) (walk : V → Option E) : Prop :=
  ∀ v e, t.holds v e = true → X v ∨ walk v = some e

def Coherent (t : Tlb V E) (walk : V → Option E) : Prop := ∀ v e, t.holds v e = true → walk v = some e

variable {t : Tlb V E} {v v' : V} {e : E} {pick : V → Bool} {walk walk' : V → Option E} {X Y : V → Prop}

theorem drop_holds [DecidableEq V] : (t.drop v).holds v' e = true ↔ v' ≠ v ∧ t.holds v' e = true := by
  simp [drop]

theorem Coherent.off (h : t.Coherent walk) : t.CoherentOff X walk := fun v e he => Or.inr (h v e he)

theorem CoherentOff.coherent (h : t.CoherentOff X walk) (hX : ∀ v e, X v → ¬ t.holds v e = true) : t.Coherent walk :=
  fun v e he => (h v e he).resolve_left (fun hv => hX v e hv he)

theorem CoherentOff.change (h : t.CoherentOff X walk) (hw : ∀ v, ¬ X v → walk v ≠ none → walk' v = walk v) :
    t.CoherentOff X walk' := by
  intro v e he
  by_cases hv : X v
  · exact Or.inl hv
  · have hs := (h v e he).resolve_left hv
    right
    rw [hw v hv (by simp [hs]), hs]

theorem CoherentOff.drop [DecidableEq V] (h : t.CoherentOff X walk) (hX : ∀ v', X v' → v' = v) :
    (t.drop v).Coherent walk := by
  intro v' e he
  obtain ⟨hne, he⟩ := drop_holds.mp he
  exact (h v' e he).resolve_left (fun hv => hne (hX v' hv))

section Fill

variable [DecidableEq E]

theorem fill_holds : (t.fill pick walk).holds v e = true ↔ t.holds v e = true ∨ pick v = true ∧ walk v = some e := by
  simp [fill]

theorem CoherentOff.fill (h : t.CoherentOff X walk) : (t.fill pick walk).CoherentOff X walk := by
  intro v e he
  rcases fill_holds.mp he with he | ⟨_, he⟩
  · exact h v e he
  · exact Or.inr he

theorem Coherent.fill (h : t.Coherent walk) : (t.fill pick walk).Coherent walk := by
  intro v e he
  rcases fill_holds.mp he with he | ⟨_, he⟩
  · exact h v e he
  · exact he

end Fill

end Tlb

end Cezos.Lib
