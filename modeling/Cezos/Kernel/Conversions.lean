import Cezos.Kernel.Initialize

namespace Cezos

open Lib

variable {s₀ s : KState} {i : ℕ}

theorem paddrChecked_eq (kva : Word) : paddrChecked kva = (paddr kva, none) := by
  have h : ¬ paddr kva < 0#32 := by simp
  rw [paddrChecked]
  exact if_neg h

structure Convertible (s : KState) : Prop where
  inj : ∀ i < s.pagesCount, ∀ j < s.pagesCount, page2pa i = page2pa j → i = j
  back : ∀ i < s.pagesCount, Returns true (pa2page (page2pa i)) s (some i) s
  window : ∀ i < s.pagesCount, ∀ v, Returns true (page2kva i) s v s → kernelBaseAddress ≤ v
  phys : ∀ i < s.pagesCount, ∀ v, Returns true (page2kva i) s v s → paddrChecked v = (page2pa i, none)
  reports : ∀ a < kernelBaseAddress, (paddrChecked a).2 ≠ none

theorem kva_eq (hi : i < s.pagesCount) (h : i < 1048576) : s.kva i = page2pa i + kernelBaseAddress := by
  have hp := pgnum_page2pa h
  rw [KState.kva, if_neg (by omega)]

theorem kva_window (hi : i < s.pagesCount) (h : i < 524288) : kernelBaseAddress ≤ s.kva i ↔ i < 65536 := by
  have hb : kernelBaseAddress.toNat = 4026531840 := by decide
  rw [kva_eq hi (by omega), BitVec.le_def, toNat_add_base, toNat_page2pa (by omega), hb]
  omega

theorem conversions (h : BootEntry s₀) (hf : Fits s₀) (hc : s.pagesCount = s₀.detectedCount) : ¬ Convertible s ∧
    (∀ i < s.pagesCount, ∀ j < s.pagesCount, page2pa i = page2pa j → i = j) ∧
    (∀ i < s.pagesCount, Returns true (pa2page (page2pa i)) s (some i) s) ∧
    (∀ i < s.pagesCount, ∃ v, Returns true (page2kva i) s v s ∧ paddrChecked v = (page2pa i, none) ∧
      (kernelBaseAddress ≤ v ↔ i < 65536)) ∧
    ∀ a, (paddrChecked a).2 = none := by
  have hlt : s.pagesCount < 524288 := by
    rw [hc]
    exact (fits_frames h hf).2.2.2
  refine ⟨fun hconv => ?_, fun i hi j hj => ?_, fun i hi => ?_, fun i hi => ?_, fun a => ?_⟩
  · exact hconv.reports 0#32 (by decide) (by rw [paddrChecked_eq])
  · exact page2pa_inj (by omega) (by omega)
  · have hp : pgnum (page2pa i) = i := pgnum_page2pa (by omega)
    rw [returns_pa2page, hp, if_neg (by omega)]
    exact ⟨rfl, rfl⟩
  · refine ⟨s.kva i, returns_page2kva.mpr ⟨rfl, rfl⟩, ?_, kva_window hi (by omega)⟩
    rw [paddrChecked_eq, kva_eq hi (by omega), paddr, BitVec.add_sub_cancel]
  · rw [paddrChecked_eq]

theorem conversions_small : ¬ Convertible smallMachine.detected ∧ (paddrChecked 0#32).2 = none := by
  have h := conversions smallMachine_entry smallMachine_fits.1 (rfl : smallMachine.detected.pagesCount = _)
  exact ⟨h.1, h.2.2.2.2 0#32⟩

theorem not_convertible : ¬ ∀ s₀ s : KState, BootEntry s₀ → Fits s₀ → s.pagesCount = s₀.detectedCount →
    Convertible s := by
  intro h
  have hconv := h smallMachine smallMachine.detected smallMachine_entry smallMachine_fits.1 rfl
  exact absurd rfl (hconv.reports 0#32 (by decide))

end Cezos
