import Cezos.Kernel.Counted
import Cezos.Kernel.Tasks

namespace Cezos

open Lib

variable {st : Bool} {b s s' : KState} {D T U : Finset ℕ} {L : List ℕ} {q t ps task : ℕ} {pgdir va perms : Word}

def SameDirs (s s' : KState) : Prop := s'.kernPageDirectory = s.kernPageDirectory ∧ s'.taskPgdir = s.taskPgdir

namespace CountInv

theorem cell (h : CountInv b s D T U L) (hd : kernFrame pgdir ∈ D) (hw : pdx va ≠ pdx uVirtualPageTable)
    (hp : isPagePresent (s.pdeAt pgdir va) = true) :
    ∃ t ∈ T, pteTarget (s.mem (kernFrame pgdir) (pdx va)) = some t ∧ t < s.pagesCount ∧ s.pagesCount < 65536 ∧
      (¬ b.Static va → (t, ptx va) ∈ countedCells b T) := by
  have hc : pteTarget (s.mem (kernFrame pgdir) (pdx va)) = some (pteFrame (s.pdeAt pgdir va)) := pteTarget_present hp
  obtain ⟨ht, hkern⟩ := h.tables _ hd _ (pdx_mem_tableDirs.mpr hw) _ hc
  have hlt := h.tables_lt _ ht
  have hcount := h.count
  have hbound := h.bound
  refine ⟨_, ht, hc, hlt, by omega, fun hns => ?_⟩
  refine Finset.mem_sdiff.mpr ⟨Finset.mem_product.mpr ⟨ht, ptx_mem_tableWords va⟩, fun hs => hns ?_⟩
  obtain ⟨hk, _, q, hq, hqlt⟩ := mem_staticCells.mp hs
  have hdir := hkern hk
  obtain ⟨_, _, _, hmapped⟩ := mappedPage_of_table (s := b) hdir (by omega) hbound
  exact ⟨q, (pteTarget_some.mp hdir).1, (hmapped q).mpr ⟨hq, hqlt⟩⟩

structure Removed (b s s' : KState) (D T U : Finset ℕ) (L L' : List ℕ) (pgdir va : Word) : Prop where
  inv : CountInv b s' D T U L'
  same : SameDirs s s'
  freed : ∀ p ∈ L', p ∈ L ∨ s.mappedPage pgdir va = some p
  count : s'.pagesCount = s.pagesCount
  dir : s'.mem (kernFrame pgdir) = s.mem (kernFrame pgdir)
  gone : ∀ t, pteTarget (s.mem (kernFrame pgdir) (pdx va)) = some t → ∀ q < s.pagesCount,
    pteTarget (s'.mem t (ptx va)) ≠ some q

theorem removePage (h : CountInv b s D T U L) (hd : kernFrame pgdir ∈ D) (ha : pgoff pgdir = 0)
    (hw : pdx va ≠ pdx uVirtualPageTable) (hns : ¬ b.Static va)
    (hr : Returns st (Cezos.removePage pgdir va) s () s') :
    ∃ L', Removed b s s' D T U L L' pgdir va := by
  obtain ⟨hp, _, hr⟩ := (returns_removePage ha).mp hr
  obtain ⟨t, ht, hc, hlt, hbound, hcell⟩ := h.cell hd hw hp
  have hcell := hcell hns
  obtain ⟨hf, hi, _, hmapped⟩ := mappedPage_of_table hc hlt hbound
  have htd := h.apart t ht
  rcases hr with ⟨hm, rfl⟩ | ⟨q, s₁, hm, _, hdec, rfl⟩
  · refine ⟨L, h, ⟨rfl, rfl⟩, fun p hp => Or.inl hp, rfl, rfl, fun t' ht' q hq he => ?_⟩
    rw [hc, Option.some.injEq] at ht'
    subst ht'
    have := (hmapped q).mpr ⟨he, hq⟩
    rw [hm] at this
    cases this
  · obtain ⟨hold, hq⟩ := (hmapped q).mp hm
    rw [hf, hi] at hdec
    have hne : (s.pages q).refs ≠ 0#32 := fun hz => (h.unused hq hz).2 _ hcell hold
    have hqL : q ∉ L := fun hl => hne (h.free q hl).2
    have hinv : CountInv b ((s.setWord t (ptx va) 0#32).setRefs q ((s.pages q).refs - 1#32)) D T U L := by
      refine h.write hcell (fun _ => by decide) rfl rfl h.chain.setMem.setRefs (fun p hp => ?_) (fun p hp => ?_)
      · rw [KState.setRefs_refs, if_neg (fun he : p = q => hqL (he ▸ hp))]
        exact (h.free p hp).2
      · rw [KState.setRefs_refs, hold, pteTarget_absent present_zero]
        by_cases hpq : p = q
        · subst hpq
          rw [if_pos rfl, if_pos rfl, BitVec.sub_add_cancel]
          simp
        · simp [hpq, Ne.symm hpq]
    have hmem : ∀ u : KState, u.mem = (s.setWord t (ptx va) 0#32).mem →
      u.mem (kernFrame pgdir) = s.mem (kernFrame pgdir) ∧
        ∀ t', pteTarget (s.mem (kernFrame pgdir) (pdx va)) = some t' → ∀ p < s.pagesCount,
          pteTarget (u.mem t' (ptx va)) ≠ some p := by
      intro u hu
      rw [hu, KState.setMem_mem]
      refine ⟨Radix.setWord_frame_ne _ _ (fun he : kernFrame pgdir = t => htd (he ▸ hd)), fun t' ht' p _ => ?_⟩
      rw [hc, Option.some.injEq] at ht'
      subst ht'
      rw [Radix.setWord_same, pteTarget_absent present_zero]
      simp
    rcases returns_pageDecref.mp hdec with ⟨hone, _, rfl⟩ | ⟨_, rfl⟩
    · have hone' : (s.pages q).refs = 1#32 := hone
      rw [hone'] at hinv
      have hfree := hinv.pushFree hq hqL (by rw [KState.setRefs_refs, if_pos rfl]; rfl)
      obtain ⟨hdir, hgone⟩ := hmem (((s.setWord t (ptx va) 0#32).setRefs q 0#32).pushFree q) rfl
      refine ⟨q :: L, hfree.dropTlb va, ⟨rfl, rfl⟩, fun p hp => ?_, rfl, hdir, hgone⟩
      rcases List.mem_cons.mp hp with rfl | hp
      · exact Or.inr hm
      · exact Or.inl hp
    · obtain ⟨hdir, hgone⟩ := hmem ((s.setWord t (ptx va) 0#32).setRefs q ((s.pages q).refs - 1#32)) rfl
      exact ⟨L, hinv.dropTlb va, ⟨rfl, rfl⟩, fun p hp => Or.inl hp, rfl, hdir, hgone⟩

structure Ready (b s s' : KState) (D T T' U U' : Finset ℕ) (L L' : List ℕ) (pgdir va p : Word) : Prop where
  inv : CountInv b s' D T' U' L'
  same : SameDirs s s'
  used : U ⊆ U'
  sub : ∀ q ∈ L', q ∈ L
  count : s'.pagesCount = s.pagesCount
  present : isPagePresent (s'.pdeAt pgdir va) = true
  ptr : p = s'.ptePtr pgdir va
  old : s' = s ∨ isPagePresent (s.pdeAt pgdir va) = false

theorem getPageTable (h : CountInv b s D T U L) (hd : kernFrame pgdir ∈ D) (ha : pgoff pgdir = 0)
    (hw : pdx va ≠ pdx uVirtualPageTable) {create : Bool} {p : Word}
    (hr : Returns st (Cezos.getPageTable pgdir va create) s p s') :
    ∃ T' U' L', Ready b s s' D T T' U U' L L' pgdir va p := by
  obtain ⟨_, ⟨hp, rfl, rfl⟩ | ⟨hp, _, ps, hl, rfl, rfl, _⟩⟩ := (returns_getPageTable ha).mp hr
  · exact ⟨T, U, L, h, ⟨rfl, rfl⟩, Finset.Subset.refl U, fun q hq => hq, rfl, hp, rfl, Or.inl rfl⟩
  · have hch := h.chain
    rw [KState.FreeList, hl] at hch
    obtain ⟨L', rfl, hn, _⟩ := Chain.pop hch none
    obtain ⟨hlt, hz⟩ := h.free ps List.mem_cons_self
    obtain ⟨_, hpT, hpD⟩ := h.free_unused List.mem_cons_self
    have hcount := h.count
    have hbound := h.bound
    have hframe : kernFrame (s.kva ps) = ps := kernFrame_kva hlt (by omega)
    have hzero := h.popFree.setFrame hpD hpT (fun _ => 0#32)
    have hpde : (s.newTable pgdir va ps).pdeAt pgdir va = page2pa ps ||| tablePerm := KState.newTable_pdeAt
    have hinv : CountInv b (s.newTable pgdir va ps) D (insert ps T) (insert ps U) L' := by
      refine hzero.newTable hd (pdx_mem_tableDirs.mpr hw) hlt ((KState.popFree_refs s ps ps).trans hz) hn
        (w := page2pa ps ||| tablePerm) (pteTarget_some.mpr ⟨present_tableEntry ps, pteFrame_tableEntry (by omega)⟩)
        (fun j _ => congrFun (Radix.setFrame_same _ _) j) ?_ rfl ?_ (fun p => ?_)
      · rw [KState.newTable_mem hframe]
        rfl
      · exact h.chain.newTable
      · rw [KState.newTable_refs, hz, KState.setMem_pages, KState.popFree_refs]
        rfl
    refine ⟨_, _, L', hinv, ⟨rfl, rfl⟩, Finset.subset_insert _ _, fun q hq => List.mem_cons_of_mem _ hq, rfl, ?_, ?_,
      Or.inr hp⟩
    · rw [hpde]
      exact present_tableEntry ps
    · rw [KState.ptePtr, hpde]
      rfl

theorem addEntry (h : CountInv b s D T U L) (hc : (t, ptx va) ∈ countedCells b T) (hps : ps < s.pagesCount)
    (hl : ps ∉ L) (hperm : perms.toNat < 4096)
    (hold : ∀ q < s.pagesCount, pteTarget (s.mem t (ptx va)) ≠ some q) :
    CountInv b ((s.setRefs ps ((s.pages ps).refs + 1#32)).setWord t (ptx va) (pageEntry ps perms)) D T U L := by
  have hcount := h.count
  have hbound := h.bound
  refine h.write (w := pageEntry ps perms) hc (fun hn => ?_) rfl rfl h.chain.setRefs.setMem (fun p hp => ?_)
    (fun p hp => ?_)
  · rw [pageEntry, present_entry] at hn
    cases hn
  · rw [KState.setMem_pages, KState.setRefs_refs, if_neg (fun he : p = ps => hl (he ▸ hp))]
    exact (h.free p hp).2
  · rw [KState.setMem_pages, KState.setRefs_refs, if_neg (hold p hp), pteTarget_pageEntry (by omega) hperm]
    by_cases hpq : p = ps
    · simp [hpq]
    · simp [hpq, Ne.symm hpq]

theorem rewriteEntry (h : CountInv b s D T U L) (ht : t ∈ T) (hps : ps < s.pagesCount) (hperm : perms.toNat < 4096)
    (hz : ps ≠ 0) (he : pteAddr (s.mem t (ptx va)) = page2pa ps) :
    CountInv b ((s.dropTlb va).setWord t (ptx va) (pageEntry ps perms)) D T U L := by
  have hcount := h.count
  have hbound := h.bound
  have hpres : isPagePresent (s.mem t (ptx va)) = true := by
    by_contra hn
    have h0 := h.absent t ht _ (ptx_mem_tableWords va) (Bool.not_eq_true _ ▸ hn)
    have h0' : page2pa ps = page2pa 0 := he.symm.trans (h0.trans (by decide))
    exact hz (page2pa_inj (by omega) (by omega) h0')
  have hfr : pteFrame (s.mem t (ptx va)) = ps := by
    rw [pteFrame, he, pgnum_page2pa (by omega)]
  refine (h.dropTlb va).rewrite ht present_entry ?_
  rw [pteTarget_pageEntry (by omega) hperm, eq_comm, pteTarget_some]
  exact ⟨hpres, hfr⟩

theorem insertPage (h : CountInv b s D T U L) (hd : kernFrame pgdir ∈ D) (ha : pgoff pgdir = 0)
    (hw : pdx va ≠ pdx uVirtualPageTable) (hps : ps < s.pagesCount) (hl : ps ∉ L) (hperm : perms.toNat < 4096)
    (hz : ps = 0 → perms ≠ 0#32) (hok : ¬ b.Static va ∨ s.Maps pgdir va ps) {r : Int}
    (hr : Returns st (Cezos.insertPage pgdir ps va perms) s r s') :
    ∃ T' U' L', CountInv b s' D T' U' L' ∧ SameDirs s s' ∧ U ⊆ U' := by
  obtain ⟨p, s₁, hg, hr⟩ := returns_insertPage.mp hr
  obtain ⟨T', U', L', hready⟩ := h.getPageTable hd ha hw hg
  have hinv := hready.inv
  rcases hr with ⟨_, _, rfl⟩ | ⟨_, _, _, hins⟩
  · exact ⟨T', U', L', hinv, hready.same, hready.used⟩
  · have hcount := hready.count
    have hlt₁ : ps < s₁.pagesCount := by omega
    have hl₁ : ps ∉ L' := fun hm => hl (hready.sub ps hm)
    obtain ⟨t, ht, hc, hlt, hbound, hcell⟩ := hinv.cell hd hw hready.present
    obtain ⟨hf, hi, _, hmapped⟩ := mappedPage_of_table hc hlt hbound
    have hword : s₁.wordAt (s₁.ptePtr pgdir va) = s₁.mem t (ptx va) := by rw [KState.wordAt, hf, hi]
    have hptr := hready.ptr
    subst hptr
    -- a page that is there already is not the one that another entry replaces
    have hns : pteAddr (s₁.mem t (ptx va)) ≠ page2pa ps ∨ isPagePresent (s₁.mem t (ptx va)) = false →
      ¬ b.Static va := by
      intro hne
      rcases hok with hns | hmaps
      · exact hns
      · rcases hready.old with rfl | hp
        · obtain ⟨hq, _⟩ := (hmapped ps).mp hmaps.2
          obtain ⟨hpres, hfr⟩ := pteTarget_some.mp hq
          rcases hne with hne | hne
          · exact absurd (pteAddr_of_frame hfr) hne
          · rw [hpres] at hne
            cases hne
        · have hpres := hmaps.1
          rw [hp] at hpres
          cases hpres
    cases hins with
    | already he hp => exact ⟨T', U', L', hinv, hready.same, hready.used⟩
    | rewritten he hp hcl =>
      rw [hword] at he
      refine ⟨T', U', L', ?_, hready.same, hready.used⟩
      rw [hf, hi]
      exact hinv.rewriteEntry ht hlt₁ hperm (fun h0 => hz h0 hp) he
    | added he hn hcl =>
      rw [hword] at hn
      refine ⟨T', U', L', ?_, hready.same, hready.used⟩
      rw [hf, hi]
      refine hinv.addEntry (hcell (hns (Or.inr hn))) hlt₁ hl₁ hperm (fun q _ => ?_)
      rw [pteTarget_absent hn]
      simp
    | @replaced s₂ he hn hrem hcl =>
      rw [hword] at he
      have hns := hns (Or.inl he)
      obtain ⟨L₂, hdone⟩ := hinv.removePage hd ha hw hns hrem
      have hps₂ : ps ∉ L₂ := by
        intro hm
        rcases hdone.freed ps hm with hm | hm
        · exact hl₁ hm
        · obtain ⟨hq, _⟩ := (hmapped ps).mp hm
          exact he (pteAddr_of_frame (pteTarget_some.mp hq).2)
      have hcount₂ := hdone.count
      refine ⟨T', U', L₂, ?_, ⟨hdone.same.1.trans hready.same.1, hdone.same.2.trans hready.same.2⟩, hready.used⟩
      rw [hf, hi]
      refine hdone.inv.addEntry (hcell hns) (by omega) hps₂ hperm (fun q hq => ?_)
      exact hdone.gone t hc q (by omega)

theorem pageAlloc (h : CountInv b s D T U L) {flags : Word} (hr : Returns st (Cezos.pageAlloc flags) s ps s') :
    ∃ L', CountInv b s' D T U L' ∧ SameDirs s s' := by
  have hpop : ∀ {u : KState}, s.pageFreeList = some ps → u = s.popFree ps → ∃ L', L = ps :: L' ∧
    CountInv b u D T U L' := by
    rintro u hl rfl
    have hch := h.chain
    rw [KState.FreeList, hl] at hch
    obtain ⟨L', rfl, _, _⟩ := Chain.pop hch none
    exact ⟨L', rfl, h.popFree⟩
  by_cases hf : flags &&& pageZeroFilled = pageZeroFilled
  · obtain ⟨hl, rfl, _⟩ := (returns_pageAlloc_zero hf).mp hr
    obtain ⟨L', rfl, hinv⟩ := hpop hl rfl
    obtain ⟨_, hT, hD⟩ := h.free_unused List.mem_cons_self
    have hlt := (h.free ps List.mem_cons_self).1
    have hcount := h.count
    have hbound := h.bound
    rw [kernFrame_kva hlt (by omega)]
    exact ⟨L', hinv.setFrame hD hT _, rfl, rfl⟩
  · obtain ⟨hl, rfl⟩ := (returns_pageAlloc_plain hf).mp hr
    obtain ⟨L', rfl, hinv⟩ := hpop hl rfl
    exact ⟨L', hinv, rfl, rfl⟩

theorem freePage (h : CountInv b s D T U L) (hps : ps < s.pagesCount) (hl : ps ∉ L)
    (hr : Returns st (Cezos.freePage ps) s () s') : CountInv b s' D T U (ps :: L) ∧ SameDirs s s' := by
  obtain ⟨hz, _, rfl⟩ := returns_freePage.mp hr
  exact ⟨h.pushFree hps hl hz, rfl, rfl⟩

theorem procInitVm (h : CountInv b s D T U L) (hk : kernFrame s.kernPageDirectory ∈ D)
    (hr : Returns st (Cezos.procInitVm task) s () s') :
    ∃ ps L', CountInv b s' (insert ps D) T (insert ps U) L' ∧ kernFrame (s.kva ps) = ps ∧
      s'.kernPageDirectory = s.kernPageDirectory ∧ s'.taskPgdir = Function.update s.taskPgdir task (s.kva ps) := by
  obtain ⟨ps, hl, _, rfl, _⟩ := returns_procInitVm.mp hr
  have hch := h.chain
  rw [KState.FreeList, hl] at hch
  obtain ⟨L', rfl, hn, _⟩ := Chain.pop hch none
  obtain ⟨hlt, hz⟩ := h.free ps List.mem_cons_self
  have hD := (h.free_unused List.mem_cons_self).2.2
  have hcount := h.count
  have hbound := h.bound
  have hframe : kernFrame (s.kva ps) = ps := kernFrame_kva hlt (by omega)
  have hmem := KState.taskDir_mem task hframe (fun he => hD (he ▸ hk))
  refine ⟨ps, L', ?_, hframe, rfl, rfl⟩
  refine h.popFree.newDir hk hlt ((KState.popFree_refs s ps ps).trans hz) hn (fun i hi => ?_) (fun f hf => ?_) rfl
    h.chain.taskDir (fun p => ?_)
  · rw [hmem, Radix.setFrame_same, if_neg (Finset.ne_of_mem_erase hi)]
    rfl
  · rw [hmem]
    exact Radix.setFrame_ne _ _ hf
  · rw [KState.taskDir_refs, KState.popFree_refs, hz]
    rfl

end CountInv

/-! ### Runs -/

structure System where
  s : KState
  started : Finset ℕ

def System.IsDir (x : System) (pgdir : Word) : Prop :=
  pgdir = x.s.kernPageDirectory ∨ ∃ task ∈ x.started, pgdir = x.s.taskPgdir task

/-- One call that returns: on pages of the array that are not on the free list, with permissions that are flag bits,
outside the window on the page tables, and with an address that `ok` admits where `remove_page` is reached. -/
inductive SystemCall (st : Bool) (ok : Word → Prop) : System → System → Prop
  | pageAlloc {x : System} {s' : KState} (flags : Word) (ps : ℕ) (hr : Returns st (pageAlloc flags) x.s ps s') :
      SystemCall st ok x ⟨s', x.started⟩
  | freePage {x : System} {s' : KState} (ps : ℕ) (hm : ps < x.s.pagesCount) (hu : ¬ x.s.OnFreeList ps)
      (hr : Returns st (freePage ps) x.s () s') : SystemCall st ok x ⟨s', x.started⟩
  | procInitVm {x : System} {s' : KState} (task : ℕ) (hr : Returns st (procInitVm task) x.s () s') :
      SystemCall st ok x ⟨s', insert task x.started⟩
  | insertPage {x : System} {s' : KState} (pgdir : Word) (ps : ℕ) (va perms : Word) (r : Int) (hd : x.IsDir pgdir)
      (hm : ps < x.s.pagesCount) (hu : ¬ x.s.OnFreeList ps) (hp : perms.toNat < 4096) (hz : ps = 0 → perms ≠ 0#32)
      (hw : pdx va ≠ pdx uVirtualPageTable) (hok : ok va ∨ x.s.Maps pgdir va ps)
      (hr : Returns st (insertPage pgdir ps va perms) x.s r s') : SystemCall st ok x ⟨s', x.started⟩
  | removePage {x : System} {s' : KState} (pgdir va : Word) (hd : x.IsDir pgdir)
      (hp : isPagePresent (x.s.pdeAt pgdir va) = true) (hw : pdx va ≠ pdx uVirtualPageTable) (hok : ok va)
      (hr : Returns st (removePage pgdir va) x.s () s') : SystemCall st ok x ⟨s', x.started⟩

structure SystemInv (b : KState) (U₀ : Finset ℕ) (x : System) (D T U : Finset ℕ) (L : List ℕ) : Prop where
  inv : CountInv b x.s D T U L
  used : U₀ ⊆ U
  dirs : ∀ pgdir, x.IsDir pgdir → kernFrame pgdir ∈ D ∧ pgoff pgdir = 0

namespace SystemInv

variable {U₀ : Finset ℕ} {x y : System}

theorem keep (h : SystemInv b U₀ x D T U L) {T' U' : Finset ℕ} {L' : List ℕ} (hinv : CountInv b s' D T' U' L')
    (hs : SameDirs x.s s') (hu : U ⊆ U') : SystemInv b U₀ ⟨s', x.started⟩ D T' U' L' := by
  refine ⟨hinv, h.used.trans hu, fun pgdir hd => h.dirs pgdir ?_⟩
  rcases hd with rfl | ⟨task, ht, rfl⟩
  · exact Or.inl hs.1
  · exact Or.inr ⟨task, ht, congrFun hs.2 task⟩

theorem call (h : SystemInv b U₀ x D T U L) (hcall : SystemCall st (fun va => ¬ b.Static va) x y) :
    ∃ D' T' U' L', SystemInv b U₀ y D' T' U' L' := by
  have hinv := h.inv
  cases hcall with
  | pageAlloc flags ps hr =>
    obtain ⟨L', hinv', hs⟩ := hinv.pageAlloc hr
    exact ⟨D, T, U, L', h.keep hinv' hs (Finset.Subset.refl U)⟩
  | freePage ps hm hu hr =>
    obtain ⟨hinv', hs⟩ := hinv.freePage hm (fun hl => hu ((onFreeList_iff hinv.chain).mpr hl)) hr
    exact ⟨D, T, U, _, h.keep hinv' hs (Finset.Subset.refl U)⟩
  | procInitVm task hr =>
    obtain ⟨ps, L', hinv', hframe, hkern, htasks⟩ := hinv.procInitVm (h.dirs _ (Or.inl rfl)).1 hr
    refine ⟨_, T, _, L', hinv', h.used.trans (Finset.subset_insert _ _), fun pgdir hd => ?_⟩
    have hold : x.IsDir pgdir → kernFrame pgdir ∈ insert ps D ∧ pgoff pgdir = 0 :=
      fun hx => ⟨Finset.mem_insert_of_mem (h.dirs pgdir hx).1, (h.dirs pgdir hx).2⟩
    rcases hd with rfl | ⟨task', ht, rfl⟩
    · exact hold (Or.inl hkern)
    · by_cases he : task' = task
      · rw [he, htasks, Function.update_self, hframe]
        exact ⟨Finset.mem_insert_self _ _, pgoff_kva _ _⟩
      · rw [htasks, Function.update_of_ne he]
        rw [htasks, Function.update_of_ne he] at hold
        exact hold (Or.inr ⟨task', Finset.mem_of_mem_insert_of_ne ht he, rfl⟩)
  | insertPage pgdir ps va perms r hd hm hu hp hz hw hok hr =>
    obtain ⟨hdD, ha⟩ := h.dirs pgdir hd
    obtain ⟨T', U', L', hinv', hs, hU⟩ :=
      hinv.insertPage hdD ha hw hm (fun hl => hu ((onFreeList_iff hinv.chain).mpr hl)) hp hz hok hr
    exact ⟨D, T', U', L', h.keep hinv' hs hU⟩
  | removePage pgdir va hd hp hw hok hr =>
    obtain ⟨hdD, ha⟩ := h.dirs pgdir hd
    obtain ⟨L', hdone⟩ := hinv.removePage hdD ha hw hok hr
    exact ⟨D, T, U, L', h.keep hdone.inv hdone.same (Finset.Subset.refl U)⟩

theorem run (hrun : Relation.ReflTransGen (SystemCall st (fun va => ¬ b.Static va)) x y)
    (h : SystemInv b U₀ x D T U L) :
    ∃ D' T' U' L', SystemInv b U₀ y D' T' U' L' := by
  induction hrun with
  | refl => exact ⟨D, T, U, L, h⟩
  | tail _ hcall ih =>
    obtain ⟨_, _, _, _, ih⟩ := ih
    exact ih.call hcall

end SystemInv

/-! ### After the boot -/

section Boot

variable {s₀ s₁ : KState} {ps0 ps1 : ℕ} {rest : List ℕ} {x y : System}

variable (h : Built s₀ s₁ s (ps0 :: ps1 :: rest))

include h

end Boot

end Cezos
