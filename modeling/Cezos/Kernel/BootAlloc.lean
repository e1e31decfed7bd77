import Cezos.Kernel.Boot
import Cezos.Kernel.TableSpec

namespace Cezos

open Lib

variable {st : Bool} {s s' : KState}

theorem toNat_pageAllignedRound_mod (a : Word) :
    (pageAllignedRound a).toNat = (a.toNat / 4096 + 1) * 4096 % 4294967296 := by
  rw [pageAllignedRound, BitVec.toNat_add, BitVec.toNat_sub, BitVec.toNat_umod]
  simp only [pageSize, BitVec.toNat_ofNat, Nat.reducePow, Nat.reduceMod]
  omega

theorem toNat_pageAllignedRound {a : Word} (h : a.toNat + 4096 ≤ 4294967295) :
    (pageAllignedRound a).toNat = (a.toNat / 4096 + 1) * 4096 := by
  rw [toNat_pageAllignedRound_mod]
  omega

namespace KState

def bootFree (s : KState) : Word := if s.bootNextFree = 0#32 then pageAllignedRound s.endBss else s.bootNextFree

@[simps -fullyApplied] def setBootNext (s : KState) (a : Word) : KState := { s with bootNextFree := a }

end KState

theorem initNextFree (s : KState) :
    (if s.bootNextFree = 0#32 then { s with bootNextFree := pageAllignedRound s.endBss } else s) =
      s.setBootNext s.bootFree := by
  unfold KState.setBootNext KState.bootFree
  split <;> rfl

theorem returns_bootAlloc {n a : Word} :
    Returns st (bootAlloc n) s a s' ↔ a = s.bootFree ∧
      (n ≠ 0#32 → ¬ kernelBaseAddress + pageTableSize < pageAllignedRound (s.bootFree + n)) ∧
      s' = s.setBootNext (if n = 0#32 then s.bootFree else pageAllignedRound (s.bootFree + n)) := by
  simp only [bootAlloc, returns_bind, returns_modify, returns_read, returns_ite, returns_errorLoop, and_false,
    false_or, initNextFree]
  constructor
  · rintro ⟨_, _, rfl, _, _, ⟨rfl, rfl⟩, ⟨hn, h⟩ | ⟨hn, _, _, rfl, hle, h⟩⟩
    · obtain ⟨rfl, rfl⟩ := returns_pure.mp h
      exact ⟨rfl, fun h => absurd hn h, by rw [if_pos hn]⟩
    · obtain ⟨rfl, rfl⟩ := returns_pure.mp h
      exact ⟨rfl, fun _ => hle, by rw [if_neg hn]; rfl⟩
  · rintro ⟨rfl, hle, rfl⟩
    refine ⟨(), _, rfl, _, _, ⟨rfl, rfl⟩, ?_⟩
    by_cases hn : n = 0#32
    · exact Or.inl ⟨hn, returns_pure.mpr ⟨rfl, by rw [if_pos hn]⟩⟩
    · exact Or.inr ⟨hn, (), _, rfl, hle hn, returns_pure.mpr ⟨rfl, by rw [if_neg hn]; rfl⟩⟩

theorem entryPgtable_entry (i : ℕ) (h : i < 1024) :
    isPagePresent (entryPgtable i) = true ∧ isPageWritable (entryPgtable i) = true ∧
      pteFrame (entryPgtable i) = i := by
  have hform : entryPgtable i = page2pa i ||| pteW ||| pteP := by
    have hp : BitVec.ofNat 32 (i * 4096) = page2pa i := by
      apply BitVec.eq_of_toNat_eq
      rw [toNat_page2pa (by omega)]
      simp only [BitVec.toNat_ofNat]
      omega
    rw [entryPgtable, hp, BitVec.or_assoc, BitVec.or_comm pteP, ← BitVec.or_assoc]
  rw [hform, writable_entry (pgoff_page2pa i), pteFrame_entry (pgoff_page2pa i) (by decide),
    pgnum_page2pa (by omega)]
  exact ⟨present_entry, by decide, rfl⟩

theorem reaches_entry (h : s.cr3 = none) (p : Word) (write : Bool) :
    s.reaches p write = decide (kernFrame p < 1024) := by
  have hp := p.isLt
  have hi := ptx_lt p
  obtain ⟨he, hw, hf⟩ := entryPgtable_entry (ptx p) hi
  have hk := kernFrame_eq p
  rw [toNat_sub_base] at hk
  have hpdx := pdx_eq p
  have hptx := ptx_eq p
  have hb : pdx kernelBaseAddress = 960 := by decide
  rw [KState.reaches, KState.walk, h, walkIn, entryWalk, hb]
  by_cases h0 : pdx p = 0
  · have hd : (isPagePresent pteP && isPagePresent (entryPgtable (ptx p))) = true := by
      rw [he]
      decide
    rw [if_pos h0, entryOf, if_pos hd, hf]
    have h₁ : (ptx p == kernFrame p) = false := by
      rw [beq_eq_false_iff_ne]
      omega
    have h₂ : ¬ kernFrame p < 1024 := by omega
    simp [h₁, h₂]
  · rw [if_neg h0]
    by_cases h1 : pdx p = 960
    · have hd : (isPagePresent (pteP ||| pteW) && isPagePresent (entryPgtable (ptx p))) = true := by
        rw [he]
        decide
      have hdw : isPageWritable (pteP ||| pteW) = true := by decide
      rw [if_pos h1, entryOf, if_pos hd, hf, hw, hdw]
      have h₁ : ptx p = kernFrame p := by omega
      have h₂ : kernFrame p < 1024 := by omega
      simp [h₁, h₂]
    · have h₂ : ¬ kernFrame p < 1024 := by omega
      rw [if_neg h1]
      simp [h₂]

end Cezos
