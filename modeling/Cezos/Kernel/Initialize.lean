import Cezos.Kernel.Booted

namespace Cezos

open Lib

variable {s s' s₀ s₁ : KState} {ps q : ℕ} {L : List ℕ}

structure Promised (s₀ : KState) : Prop where
  fits : Fits s₀
  basemem : s₀.detectedBasemem ≤ s₀.detectedCount
  frontier : kernFrame s₀.frontierAt ≤ s₀.detectedCount
  low : 70 ≤ s₀.lowFree

theorem Built.returns (h : Built s₀ s₁ s L) (hr : Returns true buildKernPgdir s₀ () s) :
    Returns true initializeMemory s₀ () s' ↔
      ∃ ps0 ps1 rest, L = ps0 :: ps1 :: rest ∧ s' = s.installed.tested ps0 ps1 := by
  rw [returns_initializeMemory]
  constructor
  · rintro ⟨t, ht, hcheck⟩
    obtain ⟨_, rfl⟩ := ht.unique hr
    exact h.returns_selfTest.mp hcheck
  · intro hs
    exact ⟨s, hr, h.returns_selfTest.mpr hs⟩

theorem initializeMemory_built (h : BootEntry s₀) (hr : Returns true initializeMemory s₀ () s') :
    ∃ s₁ s ps0 ps1 rest, Built s₀ s₁ s (ps0 :: ps1 :: rest) ∧ s' = s.installed.tested ps0 ps1 := by
  obtain ⟨s, hbuild, hcheck⟩ := returns_initializeMemory.mp hr
  obtain ⟨s₁, L, hb⟩ := buildKernPgdir_built h hbuild
  obtain ⟨ps0, ps1, rest, rfl, rfl⟩ := hb.returns_selfTest.mp hcheck
  exact ⟨s₁, s, ps0, ps1, rest, hb, rfl⟩

theorem Built.length_le (h : Built s₀ s₁ s L) : s₀.bootList.length ≤ 66 + L.length := by
  obtain ⟨T, hT, hle⟩ := h.mapping.taken_le
  rw [hT, List.length_append]
  omega

theorem lowFree_le_length (s : KState) : s.lowFree ≤ s.bootList.length := List.countP_le_length

theorem initializeMemory_exists (h : BootEntry s₀) (hp : Promised s₀) (hc : s₀.detectedCount ≤ 65535)
    (hb : s₀.detectedBasemem ≤ 256) : ∃ s₁ s ps0 ps1 rest, Built s₀ s₁ s (ps0 :: ps1 :: rest) ∧
      Returns true initializeMemory s₀ () (s.installed.tested ps0 ps1) := by
  have henough := enough_of_lowFree h hp.fits (Nat.le_trans (by decide) hp.low)
  obtain ⟨s, hr⟩ := buildKernPgdir_exists h hp.fits hb hc henough
  obtain ⟨s₁, L, hbuilt⟩ := buildKernPgdir_built h hr
  have hlen := hbuilt.length_le
  have hlow := Nat.le_trans hp.low (lowFree_le_length s₀)
  match L, hlen with
  | [], hlen =>
    simp only [List.length_nil] at hlen
    omega
  | [_], hlen =>
    simp only [List.length_singleton] at hlen
    omega
  | ps0 :: ps1 :: rest, _ =>
    exact ⟨s₁, s, ps0, ps1, rest, hbuilt, (hbuilt.returns hr).mpr ⟨ps0, ps1, rest, rfl, rfl⟩⟩

theorem smallMachine_promised : Promised smallMachine := by
  obtain ⟨hf, hb, hc⟩ := smallMachine_fits
  have hl := lowFree_ge smallMachine (by omega)
  have hu := fits_frames smallMachine_entry hf
  exact ⟨hf, by omega, by omega, by omega⟩

theorem smallMachine_boots : ∃ s₁ s ps0 ps1 rest, Built smallMachine s₁ s (ps0 :: ps1 :: rest) ∧
    Returns true initializeMemory smallMachine () (s.installed.tested ps0 ps1) := by
  obtain ⟨_, hb, hc⟩ := smallMachine_fits
  exact initializeMemory_exists smallMachine_entry smallMachine_promised (by omega) (by omega)

def KState.DirectMapped (s : KState) (q : ℕ) : Prop :=
  ∃ e, dirWalk s.mem (kernFrame s.kernPageDirectory) (s.kva q) = some e ∧ e.frame = q ∧ e.writable = true

section Tested

variable {ps0 ps1 : ℕ} {rest : List ℕ} (h : Built s₀ s₁ s (ps0 :: ps1 :: rest))

include h

theorem Built.tested_kern : (s.installed.tested ps0 ps1).kernPageDirectory = s₀.pgdirAt := h.kern

theorem Built.head_unmapped : dirWalk (s.installed.tested ps0 ps1).mem (kernFrame s₀.pgdirAt) (s.kva ps1) =
    none := by
  obtain ⟨hin, _, hpg, _⟩ := h.kva_entry (q := ps1) (by simp)
  rw [h.tested_walk hin, if_pos hpg]

theorem Built.not_directMapped : ¬ (s.installed.tested ps0 ps1).DirectMapped ps1 := by
  rintro ⟨e, he, _⟩
  have hkva : (s.installed.tested ps0 ps1).kva ps1 = s.kva ps1 := rfl
  rw [h.tested_kern, hkva, h.head_unmapped] at he
  cases he

end Tested

theorem freePages_not_mapped (h : BootEntry s₀) (hr : Returns true initializeMemory s₀ () s) :
    (¬ ∀ x, Relation.ReflTransGen (PageCall true 4096 {kernFrame s.kernPageDirectory}) ⟨s, ∅⟩ x →
      ∀ q, x.s.OnFreeList q → x.s.DirectMapped q) ∧
    ∀ ps t, ¬ Returns true (pageAlloc pageZeroFilled) s ps t := by
  obtain ⟨s₁, t, ps0, ps1, rest, hb, rfl⟩ := initializeMemory_built h hr
  have hlist := hb.tested_list
  refine ⟨fun hall => ?_, fun ps u ha => ?_⟩
  · exact hb.not_directMapped (hall _ .refl ps1 ((onFreeList_iff hlist).mpr (by simp)))
  · obtain ⟨hl, _, hclean⟩ := (returns_pageAlloc_zero (by decide)).mp ha
    obtain rfl : ps1 = ps := Option.some.inj (hlist.1.symm.trans hl)
    obtain ⟨e, he, _⟩ := reaches_walk (hclean rfl).2
    have hcr : (t.installed.tested ps0 ps1).cr3 = some (kernFrame s₀.pgdirAt) := by
      rw [← hb.kern]
      rfl
    have hkva : (t.installed.tested ps0 ps1).kva ps1 = t.kva ps1 := rfl
    rw [KState.walk, hcr, walkIn, hkva, hb.head_unmapped] at he
    cases he

theorem freePages_not_mapped_small : ∃ s, Returns true initializeMemory smallMachine () s ∧
    ∀ ps t, ¬ Returns true (pageAlloc pageZeroFilled) s ps t := by
  obtain ⟨_, _, _, _, _, _, hr⟩ := smallMachine_boots
  exact ⟨_, hr, (freePages_not_mapped smallMachine_entry hr).2⟩

theorem not_freePages_mapped : ¬ ∀ s₀ s x, BootEntry s₀ → Returns true initializeMemory s₀ () s →
    Relation.ReflTransGen (PageCall true 4096 {kernFrame s.kernPageDirectory}) ⟨s, ∅⟩ x →
      ∀ q, x.s.OnFreeList q → x.s.DirectMapped q := by
  intro hall
  obtain ⟨_, t, ps0, ps1, rest, hb, hr⟩ := smallMachine_boots
  exact hb.not_directMapped
    (hall _ _ _ smallMachine_entry hr .refl ps1 ((onFreeList_iff hb.tested_list).mpr (by simp)))

theorem selfTest_changes_small : ∃ s s', Returns true checkKernPgdirInstalled s () s' ∧
    ¬ ((∀ q, s'.OnFreeList q ↔ s.OnFreeList q) ∧ ∀ va, dirWalk s'.mem (kernFrame s.kernPageDirectory) va =
      dirWalk s.mem (kernFrame s.kernPageDirectory) va) := by
  obtain ⟨_, t, ps0, ps1, rest, hb, _⟩ := smallMachine_boots
  exact ⟨_, _, hb.selfTest, selfTest_changes hb.selfTestable hb.selfTest⟩

/-- The page `ps0` never comes back. -/
theorem not_selfTest_keeps : ¬ ∀ s s' L, SelfTestable s L → Returns true checkKernPgdirInstalled s () s' →
    (∀ q, s'.OnFreeList q ↔ s.OnFreeList q) ∧ ∀ va, dirWalk s'.mem (kernFrame s.kernPageDirectory) va =
      dirWalk s.mem (kernFrame s.kernPageDirectory) va := by
  intro hall
  obtain ⟨_, t, ps0, ps1, rest, hb, _⟩ := smallMachine_boots
  obtain ⟨hne, hn, _⟩ := hb.pages_ne
  have hset := (hall _ _ _ hb.selfTestable hb.selfTest).1 ps0
  rw [onFreeList_iff hb.tested_list, onFreeList_iff hb.selfTestable.chain] at hset
  simp [hne, hn] at hset

end Cezos
