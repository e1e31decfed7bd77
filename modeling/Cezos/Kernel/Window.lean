import Cezos.Kernel.Initialize

namespace Cezos

open Lib

variable {s s' s₀ s₁ : KState} {kf gone q t ps ps0 ps1 : ℕ} {pool : Finset ℕ} {rest : List ℕ}
  {pgdir va p perms : Word}

structure KernWindow (s : KState) (kf gone : ℕ) (pool : Finset ℕ) : Prop where
  loaded : s.cr3 = some kf
  kern : kernFrame s.kernPageDirectory = kf
  aligned : pgoff s.kernPageDirectory = 0
  dir : kf ∉ pool ∧ kf < 65535 ∧ kf ≠ gone
  pages : ∀ q ∈ pool, 0 < q ∧ q < s.pagesCount ∧ q < 65535 ∧ s.inKernelImage q = false
  empty : ∀ i ∈ lowDir, isPagePresent (s.mem kf i) = false
  tables : ∀ i ∈ regionDirs, ∀ t, pteTarget (s.mem kf i) = some t → t ∉ pool
  mapped : ∀ va, 983040 ≤ pgnum va → pgnum va < 1048575 → pgnum va ≠ 983040 + gone →
    dirWalk s.mem kf va = some ⟨pgnum va - 983040, true, false⟩

namespace KernWindow

theorem congr (h : KernWindow s kf gone pool) (hm : ∀ f, f ∉ pool → s'.mem f = s.mem f) (hc : s'.cr3 = s.cr3)
    (hk : s'.kernPageDirectory = s.kernPageDirectory) (hn : s'.pagesCount = s.pagesCount)
    (hi : s'.bootNextFree = s.bootNextFree) : KernWindow s' kf gone pool where
  loaded := hc.trans h.loaded
  kern := by rw [hk, h.kern]
  aligned := by rw [hk, h.aligned]
  dir := h.dir
  pages q hq := by
    rw [hn, KState.inKernelImage, hi]
    exact h.pages q hq
  empty i hi := by
    rw [hm kf h.dir.1]
    exact h.empty i hi
  tables i hi t ht := by
    rw [hm kf h.dir.1] at ht
    exact h.tables i hi t ht
  mapped va hl hu hne := by
    have hwalk := h.mapped va hl hu hne
    have hin : pdx va ∈ regionDirs := by
      rw [pdx_of_pgnum, mem_regionDirs]
      omega
    have htab := h.tables _ hin _ (pteTarget_present (dirWalk_some.mp hwalk).1)
    rw [dirWalk, hm kf h.dir.1, hm _ htab]
    exact hwalk

theorem setFrame (h : KernWindow s kf gone pool) (hq : q ∈ pool) (g : ℕ → Word) :
    KernWindow (s.setFrame q g) kf gone pool :=
  h.congr (fun _ hf => Radix.setFrame_ne _ _ (fun he => hf (he ▸ hq))) rfl rfl rfl rfl

theorem setWord (h : KernWindow s kf gone pool) (hq : q ∈ pool) (i : ℕ) (w : Word) :
    KernWindow (s.setWord q i w) kf gone pool :=
  h.congr (fun _ hf => Radix.setWord_frame_ne _ _ (fun he => hf (he ▸ hq))) rfl rfl rfl rfl

theorem setPages (h : KernWindow s kf gone pool) (pages : ℕ → PageStatus) :
    KernWindow (s.setPages pages) kf gone pool :=
  h.congr (fun _ _ => rfl) rfl rfl rfl rfl

theorem setFreeList (h : KernWindow s kf gone pool) (head : Option ℕ) :
    KernWindow (s.setFreeList head) kf gone pool :=
  h.congr (fun _ _ => rfl) rfl rfl rfl rfl

theorem dropTlb (h : KernWindow s kf gone pool) (va : Word) : KernWindow (s.dropTlb va) kf gone pool :=
  h.congr (fun _ _ => rfl) rfl rfl rfl rfl

theorem popFree (h : KernWindow s kf gone pool) (q : ℕ) : KernWindow (s.popFree q) kf gone pool :=
  (h.setFreeList _).setPages _

theorem pushFree (h : KernWindow s kf gone pool) (q : ℕ) : KernWindow (s.pushFree q) kf gone pool :=
  ((h.setPages _).setFreeList _).setPages _

theorem kva (h : KernWindow s kf gone pool) (hq : q ∈ pool) : kernFrame (s.kva q) = q := by
  obtain ⟨_, hlt, hlt', _⟩ := h.pages q hq
  exact kernFrame_kva hlt (by omega)

theorem reaches (h : KernWindow s kf gone pool) (hp : kernFrame p < 65535) (hg : kernFrame p ≠ gone) (write : Bool) :
    s.reaches p write = true := by
  have hpg : pgnum (pageAddr (983040 + kernFrame p)) = 983040 + kernFrame p := pgnum_pageAddr (by omega)
  apply reaches_direct h.loaded hp
  rw [h.mapped _ (by omega) (by omega) (by omega), hpg, Nat.add_sub_cancel_left]

theorem allocZero (h : KernWindow s kf gone pool) (hq : q ∈ pool) : KernWindow (s.allocZero q) kf gone pool := by
  rw [KState.allocZero, h.kva hq]
  exact (h.popFree q).setFrame hq _

theorem newTable (h : KernWindow s kf gone pool) (hd : kernFrame pgdir ∈ pool) (hq : q ∈ pool) :
    KernWindow (s.newTable pgdir va q) kf gone pool := ((h.allocZero hq).setPages _).setWord hd _ _

theorem copyDir (h : KernWindow s kf gone pool) (hq : q ∈ pool) (task : ℕ) :
    KernWindow (s.copyDir task q) kf gone pool := by
  have hset := (h.allocZero hq).setFrame hq ((s.allocZero q).mem (kernFrame s.kernPageDirectory))
  rw [KState.copyDir, h.kva hq]
  exact hset.congr (fun _ _ => rfl) rfl rfl rfl rfl

theorem taskDir (h : KernWindow s kf gone pool) (hq : q ∈ pool) (task : ℕ) :
    KernWindow (s.taskDir task q) kf gone pool := by
  rw [KState.taskDir, h.kva hq]
  exact ((h.copyDir hq task).setWord hq _ _).setPages _

theorem ne_zero (hp : kernFrame p < 65535) : p ≠ 0#32 := by
  rintro rfl
  have : kernFrame 0#32 = 65536 := by decide
  omega

theorem returns_procInitVm (h : KernWindow s kf gone pool) (hl : s.pageFreeList = some q) (hq : q ∈ pool)
    (hg : q ≠ gone) (task : ℕ) : Returns true (procInitVm task) s () (s.taskDir task q) := by
  obtain ⟨_, _, hlt, himage⟩ := h.pages q hq
  have hk := h.kva hq
  have hdir := h.dir
  have hkern := h.kern
  refine Cezos.returns_procInitVm.mpr ⟨q, hl, ne_zero (by omega), rfl, fun _ =>
    ⟨by rw [hk]; exact himage, ?_, ?_, ?_, ?_⟩⟩
  · exact h.reaches (by omega) (by omega) _
  · exact (h.allocZero hq).reaches (by omega) (by omega) _
  · exact (h.allocZero hq).reaches (by omega) (by omega) _
  · have hf : kernFrame (entryPtr (s.kva q) (pdx uVirtualPageTable)) = q := by
      rw [kernFrame_entryPtr (pgoff_kva _ _) (by decide), hk]
    exact (h.copyDir hq task).reaches (by omega) (by omega) _

theorem returns_insertPage_new (h : KernWindow s kf gone pool) (hd : kernFrame pgdir ∈ pool)
    (hdg : kernFrame pgdir ≠ gone)
    (ha : pgoff pgdir = 0) (hp : isPagePresent (s.pdeAt pgdir va) = false) (hl : s.pageFreeList = some q)
    (hq : q ∈ pool)
    (hg : q ≠ gone) (hne : q ≠ kernFrame pgdir) (hps : 0 < ps) (hlt : ps < 1048576) :
    Returns true (insertPage pgdir ps va perms) s 0
      (((s.newTable pgdir va q).setRefs ps (((s.newTable pgdir va q).pages ps).refs + 1#32)).setWord q (ptx va)
        (pageEntry ps perms)) := by
  obtain ⟨_, hqc, hqlt, himage⟩ := h.pages q hq
  have hdlt := (h.pages _ hd).2.2.1
  have hk := h.kva hq
  have hdp : kernFrame (entryPtr pgdir (pdx va)) = kernFrame pgdir := kernFrame_entryPtr ha (pdx_lt va)
  have hget : Returns true (getPageTable pgdir va true) s (tablePtr s.pagesCount (page2pa q ||| tablePerm) va)
      (s.newTable pgdir va q) := by
    refine (returns_getPageTable ha).mpr ⟨fun _ => h.reaches (by omega) (by omega) _,
      Or.inr ⟨hp, rfl, q, hl, rfl, rfl,
      fun _ => ⟨by rw [hk]; exact himage, h.reaches (by omega) (by omega) _, ?_⟩⟩⟩
    exact ((h.allocZero hq).setPages _).reaches (by omega) (by omega) _
  have hw : KernWindow (s.newTable pgdir va q) kf gone pool := h.newTable hd hq
  have hptr : kernFrame (tablePtr s.pagesCount (page2pa q ||| tablePerm) va) = q := by
    rw [kernFrame_tablePtr] <;> rw [pteFrame_tableEntry (by omega)]
    exact hqc
  have hidx := kernIndex_tablePtr s.pagesCount (page2pa q ||| tablePerm) va
  have hzero : (s.newTable pgdir va q).wordAt (tablePtr s.pagesCount (page2pa q ||| tablePerm) va) = 0#32 := by
    rw [KState.wordAt, hptr, KState.newTable_zero hk (Ne.symm hne) va]
  refine returns_insertPage.mpr ⟨_, _, hget, Or.inr ⟨ne_zero (by omega), rfl,
    fun _ => hw.reaches (by omega) (by omega) _, ?_⟩⟩
  have hadd := @Inserts.added true pgdir ps va perms (tablePtr s.pagesCount (page2pa q ||| tablePerm) va)
    (s.newTable pgdir va q) ?_
    (by rw [hzero]; exact present_zero) (fun _ => (hw.setPages _).reaches (by omega) (by omega) _)
  · rwa [hptr, hidx] at hadd
  · rw [hzero]
    intro he
    have h0 : pteAddr 0#32 = page2pa 0 := by decide
    have hz : 0 = ps := page2pa_inj (by omega) hlt (h0.symm.trans he)
    omega

theorem returns_removePage_mapped (h : KernWindow s kf gone pool) (hd : kernFrame pgdir < 65535)
    (hdg : kernFrame pgdir ≠ gone) (ha : pgoff pgdir = 0) (hp : pteTarget (s.mem (kernFrame pgdir) (pdx va)) =
    some t)
    (ht : t < s.pagesCount) (htlt : t < 65535) (htg : t ≠ gone) (hq : pteTarget (s.mem t (ptx va)) = some q)
    (hqc : q < s.pagesCount) (hdec : Returns true (pageDecref q) (s.setWord t (ptx va) 0#32) () s') :
    Returns true (removePage pgdir va) s () (s'.dropTlb va) := by
  obtain ⟨hpde, hf⟩ := pteTarget_some.mp hp
  obtain ⟨hpte, hqf⟩ := pteTarget_some.mp hq
  have hf : pteFrame (s.pdeAt pgdir va) = t := hf
  have hdp : kernFrame (entryPtr pgdir (pdx va)) = kernFrame pgdir := kernFrame_entryPtr ha (pdx_lt va)
  have hptr : kernFrame (s.ptePtr pgdir va) = t := by
    rw [KState.ptePtr, kernFrame_tablePtr (by omega), hf]
  have hidx : kernIndex (s.ptePtr pgdir va) = ptx va := kernIndex_tablePtr _ _ _
  have hword : s.pteAt pgdir va = s.mem t (ptx va) := by rw [KState.pteAt, KState.wordAt, hptr, hidx]
  have hmapped : s.mappedPage pgdir va = some q :=
    mappedPage_some.mpr ⟨ne_zero (by omega), by rw [hword]; exact hpte, hqc, by rw [hword]; exact hqf⟩
  refine (returns_removePage ha).mpr ⟨hpde, fun _ => ⟨h.reaches (by omega) (by omega) _,
    Or.inr (h.reaches (by omega) (by omega) _)⟩,
      Or.inr ⟨q, s', hmapped, fun _ => h.reaches (by omega) (by omega) _, ?_, rfl⟩⟩
  rw [hptr, hidx]
  exact hdec

end KernWindow

end Cezos
