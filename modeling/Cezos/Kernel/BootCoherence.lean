import Cezos.Kernel.Coherence
import Cezos.Kernel.Window

namespace Cezos

open Lib

variable {st : Bool} {s s' s₀ s₁ : KState} {ps0 ps1 v : ℕ} {L rest : List ℕ} {m' : ℕ → ℕ → Word}

namespace Built

theorem entry_absent (h : Built s₀ s₁ s L) {i : ℕ} (hi : i ∉ regionDirs) (hw : i ≠ 957) :
    s.mem (kernFrame s₀.pgdirAt) i = 0#32 := by
  rw [h.entry_other hi, if_neg hw]

theorem window_target (h : Built s₀ s₁ s L) :
    pteTarget (s.mem (kernFrame s₀.pgdirAt) 957) = some (kernFrame s₀.pgdirAt) := by
  have hin : 957 ∉ regionDirs := by
    rw [mem_regionDirs]
    omega
  rw [h.entry_other hin, if_pos rfl, pteTarget_some]
  exact ⟨present_entry, pteFrame_entry (pgoff_paddr (pgoff_pgdirAt h.entry)) (by decide)⟩

theorem loaded (h : Built s₀ s₁ s L) : Loaded (s.mem (kernFrame s₀.pgdirAt)) (kernFrame s₀.pgdirAt) s.installed := by
  have hwin : pdx uVirtualPageTable = 957 := by decide
  have hreg : ∀ i, i ≠ 957 → ∀ t, pteTarget (s.mem (kernFrame s₀.pgdirAt) i) = some t → i ∈ regionDirs := by
    intro i hi t ht
    by_contra hn
    rw [h.entry_absent hn hi, pteTarget_absent present_zero] at ht
    cases ht
  refine ⟨by rw [KState.installed_cr3, h.kern], congrArg kernFrame h.kern, h.selfTestable.aligned, rfl, ?_, ?_, ?_⟩
  · intro t ht
    rw [hwin, h.window_target] at ht
    exact (Option.some.inj ht).symm
  · intro i _ hi t ht
    rw [hwin] at hi
    have := h.table (hreg i hi t ht) ht
    exact ⟨this.2.1, this.2.2.2⟩
  · intro i _ hi j _ hj t ht ht'
    rw [hwin] at hi hj
    exact (h.mapping.apart.unshared _ (Finset.mem_singleton_self _) _ (hreg i hi t ht) _
      (Finset.mem_singleton_self _) _
      (hreg j hj t ht') t ht ht').2

theorem not_table (h : Built s₀ s₁ s L) {q : ℕ} (hq : q ∈ L) :
    ∀ i < 1024, pteTarget (s.mem (kernFrame s₀.pgdirAt) i) ≠ some q := by
  intro i hi ht
  rw [← h.kern] at ht
  exact h.selfTestable.tables i hi q ht hq

/-! ### The buffer during the test -/

section Test

variable (h : Built s₀ s₁ s (ps0 :: ps1 :: rest))

include h

end Test

end Built

end Cezos
