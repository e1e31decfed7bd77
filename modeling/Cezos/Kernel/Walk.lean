import Cezos.Kernel.Spec

namespace Cezos

open Lib

variable {st : Bool} {s s' : KState} {m m' : ℕ → ℕ → Word} {d v : ℕ} {va : Word}

theorem pgnum_pageAddr (h : v < 1048576) : pgnum (pageAddr v) = v := by
  rw [pgnum_eq, pageAddr]
  simp only [BitVec.toNat_ofNat]
  omega

theorem dirWalk_pageAddr : dirWalk m d (pageAddr (pgnum va)) = dirWalk m d va := by
  have h := pgnum_pageAddr (pgnum_lt va)
  rw [dirWalk, dirWalk, pdx_of_pgnum, ptx_of_pgnum, h, ← pdx_of_pgnum, ← ptx_of_pgnum]

theorem dirWalk_some {e : Entry} : dirWalk m d va = some e ↔
    isPagePresent (m d (pdx va)) = true ∧ isPagePresent (m (pteFrame (m d (pdx va))) (ptx va)) = true ∧
      e = ⟨pteFrame (m (pteFrame (m d (pdx va))) (ptx va)),
        isPageWritable (m d (pdx va)) && isPageWritable (m (pteFrame (m d (pdx va))) (ptx va)),
        isPageUser (m d (pdx va)) && isPageUser (m (pteFrame (m d (pdx va))) (ptx va))⟩ := by
  rw [dirWalk, entryOf]
  cases isPagePresent (m d (pdx va)) <;> cases isPagePresent (m (pteFrame (m d (pdx va))) (ptx va)) <;>
    simp [eq_comm]

theorem dirWalk_none : dirWalk m d va = none ↔ isPagePresent (m d (pdx va)) = false ∨
    isPagePresent (m (pteFrame (m d (pdx va))) (ptx va)) = false := by
  rw [dirWalk, entryOf]
  cases isPagePresent (m d (pdx va)) <;> cases isPagePresent (m (pteFrame (m d (pdx va))) (ptx va)) <;> simp

theorem dirWalk_congr (h₁ : m' d (pdx va) = m d (pdx va))
    (h₂ : isPagePresent (m d (pdx va)) = true →
      m' (pteFrame (m d (pdx va))) (ptx va) = m (pteFrame (m d (pdx va))) (ptx va)) :
    dirWalk m' d va = dirWalk m d va := by
  cases hp : isPagePresent (m d (pdx va)) with
  | false => rw [dirWalk_none.mpr (Or.inl (h₁.symm ▸ hp)), dirWalk_none.mpr (Or.inl hp)]
  | true => rw [dirWalk, dirWalk, h₁, h₂ hp]

theorem reaches_walk {p : Word} {write : Bool} (h : s.reaches p write = true) :
    ∃ e, s.walk p = some e ∧ e.frame = kernFrame p := by
  rw [KState.reaches] at h
  cases hw : s.walk p with
  | none => simp [hw] at h
  | some e =>
    simp only [hw, Bool.and_eq_true, beq_iff_eq] at h
    exact ⟨e, rfl, h.1⟩

theorem returns_loadUser {w : Word} : Returns st (loadUser va) s w s' ↔
    ∃ e, s.walk va = some e ∧ w = s.mem e.frame (pgoff va / 4) ∧ s' = s := by
  unfold Returns loadUser
  cases hw : s.walk va with
  | none => simp
  | some e =>
    simp only [Outcome.ret.injEq, Option.some.injEq, exists_eq_left']
    constructor
    · rintro ⟨c, ⟨rfl, rfl, _⟩, _⟩
      exact ⟨rfl, rfl⟩
    · rintro ⟨rfl, rfl⟩
      exact ⟨true, ⟨rfl, rfl, rfl⟩, fun _ => rfl⟩

end Cezos
