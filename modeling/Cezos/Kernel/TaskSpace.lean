import Cezos.Kernel.Tasks

namespace Cezos

open Lib

variable {st : Bool} {s s' : KState} {task q : ℕ} {va : Word}

/-- The directory of a task shows outside the window what the kernel's shows, and itself in the window. -/
structure TaskSpace (s s' : KState) (task : ℕ) : Prop where
  outside : ∀ va, pdx va ≠ pdx uVirtualPageTable →
    dirWalk s'.mem (kernFrame (s'.taskPgdir task)) va = dirWalk s'.mem (kernFrame s'.kernPageDirectory) va
  self : pteTarget (s'.pdeAt (s'.taskPgdir task) uVirtualPageTable) = some (kernFrame (s'.taskPgdir task))
  refs : (s'.pages (kernFrame (s'.taskPgdir task))).refs = 1#32
  taken : ¬ s'.OnFreeList (kernFrame (s'.taskPgdir task))
  kern : s'.kernPageDirectory = s.kernPageDirectory
  kernDir : s'.mem (kernFrame s.kernPageDirectory) = s.mem (kernFrame s.kernPageDirectory)
  kernWalk : ∀ va, dirWalk s'.mem (kernFrame s.kernPageDirectory) va =
    dirWalk s.mem (kernFrame s.kernPageDirectory) va

/-- Moreover the window can be read and not written from user mode, as in the kernel's directory. -/
structure AgreesWithKernel (s s' : KState) (task : ℕ) : Prop extends TaskSpace s s' task where
  user : isPageUser (s'.pdeAt (s'.taskPgdir task) uVirtualPageTable) =
    isPageUser (s'.pdeAt s'.kernPageDirectory uVirtualPageTable)
  writable : isPageWritable (s'.pdeAt (s'.taskPgdir task) uVirtualPageTable) =
    isPageWritable (s'.pdeAt s'.kernPageDirectory uVirtualPageTable)
  documented : isPageUser (s'.pdeAt (s'.taskPgdir task) uVirtualPageTable) = true ∧
    isPageWritable (s'.pdeAt (s'.taskPgdir task) uVirtualPageTable) = false

/-- The first page of the free list is neither the kernel's directory nor one of its tables. -/
structure SpareHead (s : KState) (ps : ℕ) (L : List ℕ) : Prop where
  list : s.FreeList (ps :: L)
  lt : ps < s.pagesCount ∧ ps < 1048576
  refs : (s.pages ps).refs = 0#32
  not_dir : kernFrame s.kernPageDirectory ≠ ps
  not_table : ∀ i < 1024, pteTarget (s.mem (kernFrame s.kernPageDirectory) i) ≠ some ps

theorem windowEntry (ha : pgoff va = 0) : pteTarget (va ||| pteP ||| pteW) = some (pgnum va) ∧
    isPageUser (va ||| pteP ||| pteW) = false ∧ isPageWritable (va ||| pteP ||| pteW) = true := by
  have hw : va ||| pteP ||| pteW = va ||| pteW ||| pteP := by
    rw [BitVec.or_assoc, BitVec.or_comm pteP, ← BitVec.or_assoc]
  rw [hw, user_entry ha, writable_entry ha, pteTarget_present present_entry, pteFrame_entry ha (by decide)]
  exact ⟨rfl, by decide, by decide⟩

theorem taskDir_window : (s.taskDir task q).pdeAt ((s.taskDir task q).taskPgdir task) uVirtualPageTable =
    paddr (s.kva q) ||| pteP ||| pteW := by
  have hdir : (s.taskDir task q).taskPgdir task = s.kva q := Function.update_self ..
  rw [hdir, KState.pdeAt]
  exact Radix.setWord_same _ _

theorem taskDir_space {L : List ℕ} (h : SpareHead s q L) : TaskSpace s (s.taskDir task q) task := by
  have hk : kernFrame (s.kva q) = q := kernFrame_kva h.lt.1 h.lt.2
  have hmem := KState.taskDir_mem task hk h.not_dir
  have hdir : (s.taskDir task q).taskPgdir task = s.kva q := Function.update_self ..
  have hkern : (s.taskDir task q).kernPageDirectory = s.kernPageDirectory := rfl
  have hkd : (s.taskDir task q).mem (kernFrame s.kernPageDirectory) = s.mem (kernFrame s.kernPageDirectory) := by
    rw [hmem, Radix.setFrame_ne _ _ h.not_dir]
  have hlist : (s.taskDir task q).FreeList L := KState.FreeList.taskDir h.list
  refine ⟨fun va hva => ?_, ?_, ?_, ?_, hkern, hkd, fun va => ?_⟩
  · have hpde : (s.taskDir task q).mem q (pdx va) = s.mem (kernFrame s.kernPageDirectory) (pdx va) := by
      rw [hmem, Radix.setFrame_same, if_neg hva]
    rw [hdir, hk, hkern, dirWalk, dirWalk, hpde, hkd]
  · rw [taskDir_window, (windowEntry (pgoff_paddr (pgoff_kva s q))).1, hdir]
    rfl
  · rw [hdir, hk, KState.taskDir_refs, if_pos rfl, h.refs]
    rfl
  · rw [hdir, hk, onFreeList_iff hlist]
    exact (List.nodup_cons.mp (Chain.nodup h.list)).1
  · refine dirWalk_congr (by rw [hkd]) (fun hp => ?_)
    have hne := h.not_table (pdx va) (pdx_lt va)
    rw [pteTarget_present hp, Ne, Option.some.injEq] at hne
    rw [hmem, Radix.setFrame_ne _ _ hne]

theorem procInitVm_space (hr : Returns st (procInitVm task) s () s') : ¬ AgreesWithKernel s s' task ∧
    ∀ ps L, SpareHead s ps L → TaskSpace s s' task := by
  obtain ⟨q, hl, _, rfl, _⟩ := returns_procInitVm.mp hr
  constructor
  · intro h
    have huser := h.documented.1
    rw [taskDir_window, (windowEntry (pgoff_paddr (pgoff_kva s q))).2.1] at huser
    cases huser
  · intro ps L h
    have hhead := (Chain.cons_iff.mp h.list).1
    rw [hl] at hhead
    cases hhead
    exact taskDir_space h

def smallWindowed : KState := smallState.setWord 4 957 (page2pa 4 ||| pteU ||| pteP)

theorem smallWindowed_spare : SpareHead smallWindowed 2 [5, 3] where
  list := ⟨rfl, rfl, rfl, rfl⟩
  lt := ⟨by decide, by decide⟩
  refs := rfl
  not_dir := by decide
  not_table i _ ht := by
    by_cases hi : i = 957
    · subst hi
      exact absurd ht (by decide)
    · have hz : smallWindowed.mem 4 i = 0#32 := by
        rw [smallWindowed, KState.setMem_mem, Radix.setWord_index_ne _ _ hi]
        rfl
      change pteTarget (smallWindowed.mem 4 i) = some 2 at ht
      rw [hz, pteTarget_absent present_zero] at ht
      cases ht

theorem smallWindowed_returns : Returns true (procInitVm 0) smallWindowed () (procInitVm 0 smallWindowed).state :=
  Returns.of_eval (by decide +kernel)

theorem procInitVm_space_small : ∃ s', Returns true (procInitVm 0) smallWindowed () s' ∧
    ¬ AgreesWithKernel smallWindowed s' 0 ∧ TaskSpace smallWindowed s' 0 := by
  obtain ⟨hn, hs⟩ := procInitVm_space smallWindowed_returns
  exact ⟨_, smallWindowed_returns, hn, hs 2 [5, 3] smallWindowed_spare⟩

theorem not_agreesWithKernel : ¬ ∀ (s s' : KState) (task : ℕ), Returns true (procInitVm task) s () s' →
    AgreesWithKernel s s' task := by
  intro h
  have huser := (h _ _ 0 smallWindowed_returns).user
  exact absurd huser (by decide +kernel)

end Cezos
