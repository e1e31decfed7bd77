import Cezos.Kernel.TableSpec

namespace Cezos

open Lib

variable {st : Bool} {s s' : KState} {pgdir va : Word}

def dirPhys (mem : ℕ → ℕ → Word) (dir : ℕ) (va : Word) : Option ℕ :=
  (dirWalk mem dir va).map (fun e => e.frame * 4096 + pgoff va)

def windowVa (va : Word) : Word := uVirtualPageTable + 4#32 * BitVec.ofNat 32 (pgnum va)

theorem toNat_windowVa (va : Word) : (windowVa va).toNat = 4013948928 + 4 * pgnum va := by
  have h := pgnum_lt va
  rw [windowVa, uVirtualPageTable_eq, BitVec.toNat_add, BitVec.toNat_mul]
  simp only [BitVec.toNat_ofNat]
  omega

theorem pdx_windowVa (va : Word) : pdx (windowVa va) = pdx uVirtualPageTable := by
  have h := pgnum_lt va
  rw [pdx_eq, pdx_eq, toNat_windowVa, uVirtualPageTable_eq]
  simp only [BitVec.toNat_ofNat]
  omega

theorem ptx_windowVa (va : Word) : ptx (windowVa va) = pdx va := by
  have h := pgnum_lt va
  rw [ptx_eq, toNat_windowVa, pdx_of_pgnum]
  omega

theorem pgoff_windowVa (va : Word) : pgoff (windowVa va) = 4 * ptx va := by
  rw [pgoff_eq, toNat_windowVa, ptx_of_pgnum]
  omega

structure SelfMapped (mem : ℕ → ℕ → Word) (dir : ℕ) : Prop where
  present : isPagePresent (mem dir (pdx uVirtualPageTable)) = true
  frame : pteFrame (mem dir (pdx uVirtualPageTable)) = dir

theorem selfMapped_setWord (ha : pgoff pgdir = 0) {perms : Word} (hp : perms.toNat < 4096) (mem : ℕ → ℕ → Word) :
    SelfMapped (Radix.setWord mem (kernFrame pgdir) (pdx uVirtualPageTable) (paddr pgdir ||| perms ||| pteP))
      (kernFrame pgdir) where
  present := by
    rw [Radix.setWord_same]
    exact present_entry
  frame := by
    rw [Radix.setWord_same, pteFrame_entry (pgoff_paddr ha) hp]
    rfl

theorem selfMapped_kern (ha : pgoff pgdir = 0) (mem : ℕ → ℕ → Word) :
    SelfMapped (Radix.setWord mem (kernFrame pgdir) (pdx uVirtualPageTable) (paddr pgdir ||| pteU ||| pteP))
      (kernFrame pgdir) :=
  selfMapped_setWord ha (by decide) mem

theorem selfMapped_task (ha : pgoff pgdir = 0) (mem : ℕ → ℕ → Word) :
    SelfMapped (Radix.setWord mem (kernFrame pgdir) (pdx uVirtualPageTable) (paddr pgdir ||| pteP ||| pteW))
      (kernFrame pgdir) := by
  rw [BitVec.or_assoc, BitVec.or_comm pteP, ← BitVec.or_assoc]
  exact selfMapped_setWord ha (by decide) mem

theorem SelfMapped.dirPhys (h : SelfMapped s.mem (kernFrame pgdir))
    (hp : isPagePresent (s.pdeAt pgdir va) = true) :
    dirPhys s.mem (kernFrame pgdir) (windowVa va) = some (pteFrame (s.pdeAt pgdir va) * 4096 + 4 * ptx va) := by
  have hpde : isPagePresent (s.mem (kernFrame pgdir) (pdx va)) = true := hp
  rw [Cezos.dirPhys, dirWalk, pdx_windowVa, ptx_windowVa, h.frame, pgoff_windowVa, entryOf, h.present, hpde]
  rfl

theorem toNat_paddr_ptePtr (hm : pteFrame (s.pdeAt pgdir va) < s.pagesCount) :
    (paddr (s.ptePtr pgdir va)).toNat = pteFrame (s.pdeAt pgdir va) * 4096 + 4 * ptx va := by
  have hf := pteFrame_lt (s.pdeAt pgdir va)
  have hi := ptx_lt va
  rw [KState.ptePtr, paddr_tablePtr hm, BitVec.toNat_add, toNat_split (pteAddr _), pgoff_pteAddr, ← pteFrame,
    BitVec.toNat_mul]
  simp only [BitVec.toNat_ofNat]
  omega

theorem paddr_inj {p p' : Word} (h : paddr p = paddr p') : p = p' := by
  rw [← BitVec.sub_add_cancel p kernelBaseAddress, ← BitVec.sub_add_cancel p' kernelBaseAddress]
  exact congrArg (· + kernelBaseAddress) h

theorem SelfMapped.ptePtr_window (h : SelfMapped s.mem (kernFrame pgdir)) (ha : pgoff pgdir = 0)
    (hv : pdx va = pdx uVirtualPageTable) (hm : pteFrame (s.pdeAt pgdir va) < s.pagesCount) :
    s.ptePtr pgdir va = entryPtr pgdir (ptx va) := by
  have hd : pteFrame (s.pdeAt pgdir va) = kernFrame pgdir := by
    rw [KState.pdeAt, hv, h.frame]
  have hi := ptx_lt va
  have hp := pgdir.isLt
  apply paddr_inj
  apply BitVec.eq_of_toNat_eq
  rw [toNat_paddr_ptePtr hm, hd, paddr, toNat_sub_base, toNat_entryPtr ha hi, kernFrame_eq, toNat_sub_base]
  rw [pgoff_eq] at ha
  omega

theorem returns_getPageTable_present (ha : pgoff pgdir = 0) (hp : isPagePresent (s.pdeAt pgdir va) = true) :
    Returns false (getPageTable pgdir va false) s (s.ptePtr pgdir va) s :=
  (returns_getPageTable ha).mpr ⟨by simp, Or.inl ⟨hp, rfl, rfl⟩⟩

theorem window_shows_entry (h : SelfMapped s.mem (kernFrame pgdir)) (ha : pgoff pgdir = 0)
    (hp : isPagePresent (s.pdeAt pgdir va) = true) (hm : pteFrame (s.pdeAt pgdir va) < s.pagesCount) :
    ∃ p, Returns false (getPageTable pgdir va false) s p s ∧
      dirPhys s.mem (kernFrame pgdir) (windowVa va) = some (paddr p).toNat ∧
      (pdx va = pdx uVirtualPageTable → p = entryPtr pgdir (ptx va)) :=
  ⟨s.ptePtr pgdir va, returns_getPageTable_present ha hp, by rw [h.dirPhys hp, toNat_paddr_ptePtr hm],
    fun hv => h.ptePtr_window ha hv hm⟩

def windowState : KState where
  mem := Radix.setWord (Radix.setWord (fun _ _ => 0#32) 1 3 0x2007#32) 1 957 0x1005#32
  pages := fun _ => ⟨none, 0#32⟩
  pageFreeList := none
  pagesCount := 4
  pagesBasememCount := 0
  kernPageDirectory := 0xF0001000#32
  pagesBase := 0#32
  bootNextFree := kernelBaseAddress
  endBss := kernelBaseAddress
  nvram := fun _ => 0#8
  taskPgdir := fun _ => 0#32
  cr0 := 0#32
  cr3 := some 1
  tlb := .empty
  refill := fun _ _ => false
  clock := 0

theorem window_shows_entry_three : ∃ p, Returns false (getPageTable 0xF0001000#32 0xC05123#32 false) windowState p
    windowState ∧ dirPhys windowState.mem 1 (windowVa 0xC05123#32) = some (paddr p).toNat ∧
      (pdx 0xC05123#32 = pdx uVirtualPageTable → p = entryPtr 0xF0001000#32 (ptx 0xC05123#32)) :=
  window_shows_entry (s := windowState) ⟨by decide, by decide⟩ (by decide) (by decide) (by decide)

end Cezos
