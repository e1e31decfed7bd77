import Cezos.Kernel.KernLayout
import Cezos.Kernel.PageCalls
import Cezos.Kernel.SelfTest

namespace Cezos

open Lib

variable {st : Bool} {s s' s₀ s₁ : KState} {va : Word} {ps0 ps1 kf q f i : ℕ} {L rest : List ℕ}
  {m m' : ℕ → ℕ → Word}

/-! ### The loaded directory -/

@[simps! -fullyApplied] def KState.installed (s : KState) : KState :=
  { s.loadDir (kernFrame s.kernPageDirectory) with cr0 := (s.cr0 ||| cr0Mask) &&& ~~~cr0Clear }

theorem returns_initializeMemory : Returns st initializeMemory s₀ () s' ↔
    ∃ s, Returns st buildKernPgdir s₀ () s ∧ Returns st checkKernPgdirInstalled s.installed () s' := by
  simp only [initializeMemory, returns_bind, returns_read, lcr3, lcr0, returns_modify]
  constructor
  · rintro ⟨_, s, h₁, _, _, ⟨rfl, rfl⟩, _, _, rfl, _, _, ⟨rfl, rfl⟩, _, _, rfl, h₂⟩
    exact ⟨_, h₁, h₂⟩
  · rintro ⟨s, h₁, h₂⟩
    exact ⟨(), s, h₁, _, _, ⟨rfl, rfl⟩, (), _, rfl, _, _, ⟨rfl, rfl⟩, (), _, rfl, h₂⟩

theorem pgnum_of_kernFrame {p : Word} (h : kernFrame p < 65535) : pgnum p = 983040 + kernFrame p := by
  have hp := p.isLt
  rw [kernFrame_eq, toNat_sub_base] at h ⊢
  rw [pgnum_eq]
  omega

theorem reaches_direct {p : Word} {write : Bool} (hc : s.cr3 = some kf) (hp : kernFrame p < 65535)
    (hw : dirWalk s.mem kf (pageAddr (983040 + kernFrame p)) = some ⟨kernFrame p, true, false⟩) :
    s.reaches p write = true := by
  rw [← pgnum_of_kernFrame hp, dirWalk_pageAddr] at hw
  have hwalk : s.walk p = some ⟨kernFrame p, true, false⟩ := by
    rw [KState.walk, hc]
    exact hw
  simp [KState.reaches, hwalk]

structure Spares (m m' : ℕ → ℕ → Word) (kf : ℕ) (L : List ℕ) : Prop where
  frames : ∀ f, f ∉ L → f ≠ kf → m' f = m f
  dir : ∀ i, i ≠ 0 → m' kf i = m kf i

namespace Spares

theorem refl : Spares m m kf L := ⟨fun _ _ _ => rfl, fun _ _ => rfl⟩

theorem setFrame (h : Spares m m' kf L) (hq : q ∈ L) (hk : kf ∉ L) (g : ℕ → Word) :
    Spares m (Radix.setFrame m' q g) kf L := by
  refine ⟨fun f hf hfk => ?_, fun i hi => ?_⟩
  · rw [Radix.setFrame_ne _ _ (fun he : f = q => hf (he ▸ hq))]
    exact h.frames f hf hfk
  · rw [Radix.setFrame_ne _ _ (fun he : kf = q => hk (he ▸ hq))]
    exact h.dir i hi

theorem setWord (h : Spares m m' kf L) (hq : q ∈ L) (hk : kf ∉ L) (w : Word) :
    Spares m (Radix.setWord m' q i w) kf L := by
  refine ⟨fun f hf hfk => ?_, fun j hj => ?_⟩
  · rw [Radix.setWord_frame_ne _ _ (fun he : f = q => hf (he ▸ hq))]
    exact h.frames f hf hfk
  · rw [Radix.setWord_frame_ne _ _ (fun he : kf = q => hk (he ▸ hq))]
    exact h.dir j hj

theorem setDir (h : Spares m m' kf L) (w : Word) : Spares m (Radix.setWord m' kf 0 w) kf L := by
  refine ⟨fun f hf hfk => ?_, fun j hj => ?_⟩
  · rw [Radix.setWord_frame_ne _ _ hfk]
    exact h.frames f hf hfk
  · rw [Radix.setWord_index_ne _ _ hj]
    exact h.dir j hj

end Spares

namespace Built

theorem dir_not_free (h : Built s₀ s₁ s L) : kernFrame s₀.pgdirAt ∉ L := fun hm => h.stock.dir (h.mapping.sub hm)

theorem table (h : Built s₀ s₁ s L) (hi : i ∈ regionDirs) {t : ℕ}
    (ht : pteTarget (s.mem (kernFrame s₀.pgdirAt) i) = some t) :
    t ∉ L ∧ t ≠ kernFrame s₀.pgdirAt ∧ t < 1024 ∧ t < s.pagesCount := by
  obtain ⟨h₁, h₂, h₃, h₄⟩ := h.mapping.table h.stock hi ht
  exact ⟨h₂, fun he => h.stock.dir (he ▸ h₁), h₃, h₄⟩

theorem walk_spared (h : Built s₀ s₁ s L) (hm : Spares s.mem m' (kernFrame s₀.pgdirAt) L)
    (hv : pdx va ∈ regionDirs) :
    dirWalk m' (kernFrame s₀.pgdirAt) va = dirWalk s.mem (kernFrame s₀.pgdirAt) va := by
  have h0 : pdx va ≠ 0 := by
    rw [mem_regionDirs] at hv
    omega
  refine dirWalk_congr (hm.dir _ h0) (fun hp => ?_)
  obtain ⟨h₁, h₂, _⟩ := h.table hv (pteTarget_present hp)
  rw [hm.frames _ h₁ h₂]

theorem reaches (h : Built s₀ s₁ s L) {t : KState} (hc : t.cr3 = some (kernFrame s₀.pgdirAt))
    (hm : Spares s.mem t.mem (kernFrame s₀.pgdirAt) L) {p : Word} (hp : kernFrame p < 65535) (write : Bool) :
    t.reaches p write = true := by
  have hpg : pgnum (pageAddr (983040 + kernFrame p)) = 983040 + kernFrame p := pgnum_pageAddr (by omega)
  have hin : pdx (pageAddr (983040 + kernFrame p)) ∈ regionDirs := by
    rw [pdx_of_pgnum, hpg, mem_regionDirs]
    omega
  apply reaches_direct hc hp
  rw [h.walk_spared hm hin, h.walk_direct (by omega) (by omega), hpg, Nat.add_sub_cancel_left]

theorem free_page (h : Built s₀ s₁ s L) (hq : q ∈ L) : 0 < q ∧ q < s.pagesCount ∧ q < 65535 ∧
    s.inKernelImage q = false ∧ (s.pages q).refs = 0#32 := by
  have hb := h.mapping.sub hq
  have hpg := h.stock.pages q hb
  have hc := h.count
  have hbase := h.basemem
  rw [h.prepared.count] at hpg
  rw [h.count_eq]
  refine ⟨hpg.1, hpg.2.1, by omega, ?_, h.mapping.free q hq⟩
  have hext : pgnum extPhysMem = 256 := by decide
  rw [mem_bootList] at hb
  rw [KState.inKernelImage, h.mapping.setup.next, h.prepared.next, Bool.and_eq_false_iff, decide_eq_false_iff_not,
    decide_eq_false_iff_not]
  omega

theorem kernFrame_free (h : Built s₀ s₁ s L) (hq : q ∈ L) : kernFrame (s.kva q) = q := by
  have := h.free_page hq
  exact kernFrame_kva this.2.1 (by omega)

theorem kva_entry (h : Built s₀ s₁ s L) (hq : q ∈ L) : pdx (s.kva q) ∈ regionDirs ∧ pdx (s.kva q) ≠ 0 ∧
    pgnum (s.kva q) = 983040 + q ∧ dirWalk s.mem (kernFrame s₀.pgdirAt) (s.kva q) = some ⟨q, true, false⟩ := by
  have hpage := h.free_page hq
  have hk := h.kernFrame_free hq
  have hpg : pgnum (s.kva q) = 983040 + q := by
    rw [pgnum_of_kernFrame (by omega), hk]
  have hdx := pdx_of_pgnum (s.kva q)
  refine ⟨?_, by omega, hpg, ?_⟩
  · rw [mem_regionDirs]
    omega
  · rw [h.walk_direct (by omega) (by omega), hpg, Nat.add_sub_cancel_left]

def kvaTable (s : KState) (q : ℕ) : ℕ := pteFrame (s.pdeAt s.kernPageDirectory (s.kva q))

theorem kvaTable_target (h : Built s₀ s₁ s L) (hq : q ∈ L) :
    pteTarget (s.mem (kernFrame s₀.pgdirAt) (pdx (s.kva q))) = some (kvaTable s q) := by
  rw [kvaTable, KState.pdeAt, h.kern]
  exact pteTarget_present (dirWalk_some.mp (h.kva_entry hq).2.2.2).1

theorem walk_cleared (h : Built s₀ s₁ s L) (hm : Spares s.mem m' (kernFrame s₀.pgdirAt) L) (hq : q ∈ L)
    (hv : pdx va ∈ regionDirs) :
    dirWalk (Radix.setWord m' (kvaTable s q) (ptx (s.kva q)) 0#32) (kernFrame s₀.pgdirAt) va =
      if pgnum va = 983040 + q then none else dirWalk s.mem (kernFrame s₀.pgdirAt) va := by
  obtain ⟨hin, hne, hpg, hwalk⟩ := h.kva_entry hq
  have ht := h.kvaTable_target hq
  obtain ⟨_, htk, _, _⟩ := h.table hin ht
  have hrow : ∀ i, Radix.setWord m' (kvaTable s q) (ptx (s.kva q)) 0#32 (kernFrame s₀.pgdirAt) i =
      m' (kernFrame s₀.pgdirAt) i := by
    intro i
    rw [Radix.setWord_frame_ne _ _ (Ne.symm htk)]
  split
  · next he =>
    have hd : pdx va = pdx (s.kva q) := by rw [pdx_of_pgnum, pdx_of_pgnum, hpg, he]
    have hx : ptx va = ptx (s.kva q) := by rw [ptx_of_pgnum, ptx_of_pgnum, hpg, he]
    rw [dirWalk_none, hrow, hd, hm.dir _ hne, (pteTarget_some.mp ht).2, hx, Radix.setWord_same]
    exact Or.inr present_zero
  · next he =>
    rw [← h.walk_spared hm hv]
    refine dirWalk_congr (hrow _) (fun hp => ?_)
    rw [Radix.setWord, if_neg]
    rintro ⟨htab, hidx⟩
    have h0 : pdx va ≠ 0 := by
      rw [mem_regionDirs] at hv
      omega
    rw [hm.dir _ h0] at hp htab
    have hsame :=
      (h.mapping.apart.unshared _ (Finset.mem_singleton_self _) _ hv _ (Finset.mem_singleton_self _) _ hin _
      (pteTarget_some.mpr ⟨hp, htab⟩) ht).2
    have h₁ := pgnum_split va
    have h₂ := pgnum_split (s.kva q)
    rw [hsame, hidx, ← h₂, hpg] at h₁
    exact he h₁

theorem selfTestable (h : Built s₀ s₁ s L) : SelfTestable s.installed L where
  loaded := rfl
  aligned := by
    rw [KState.installed_kernPageDirectory, h.kern]
    exact pgoff_pgdirAt h.entry
  chain := h.mapping.chain
  pages q hq := by
    have := h.free_page hq
    exact ⟨this.2.1, by omega, this.2.2.2.2⟩
  dir := by
    rw [KState.installed_kernPageDirectory, h.kern]
    exact h.dir_not_free
  tables i hi t ht := by
    rw [KState.installed_kernPageDirectory, h.kern, KState.installed_mem] at ht
    by_cases hin : i ∈ regionDirs
    · exact (h.table hin ht).1
    · rw [h.entry_other hin] at ht
      split at ht
      · have ha := pgoff_pgdirAt h.entry
        have hf := pteFrame_entry (pgoff_paddr ha) (show pteU.toNat < 4096 by decide)
        obtain ⟨_, hd⟩ := pteTarget_some.mp ht
        rw [hf] at hd
        rw [← hd]
        exact h.dir_not_free
      · rw [pteTarget_absent present_zero] at ht
        cases ht

end Built

/-! ### The states of the test -/

namespace KState

def testTable (s : KState) (ps0 ps1 : ℕ) : KState :=
  (s.afterFill ps0 ps1).newTable s.kernPageDirectory pageSize ps0

def testEntry (s : KState) (ps0 ps1 : ℕ) : KState :=
  ((s.testTable ps0 ps1).setRefs ps1 (((s.testTable ps0 ps1).pages ps1).refs + 1#32)).setWord ps0 1
    (pageEntry ps1 pteW)

def testRemoved (s : KState) (ps0 ps1 : ℕ) : KState :=
  ((((s.testEntry ps0 ps1).setWord (Built.kvaTable s ps1) (ptx (s.kva ps1)) 0#32).setRefs ps1 0#32).pushFree
    ps1).dropTlb (s.kva ps1)

def tested (s : KState) (ps0 ps1 : ℕ) : KState :=
  ((s.testRemoved ps0 ps1).setWord (kernFrame s.kernPageDirectory) 0 0#32).setRefs ps0 0#32

theorem testEntry_mem : (s.testEntry ps0 ps1).mem =
    Radix.setWord (s.testTable ps0 ps1).mem ps0 1 (pageEntry ps1 pteW) := by
  rw [testEntry, setMem_mem, setPages_mem]

theorem testRemoved_mem : (s.installed.testRemoved ps0 ps1).mem =
    Radix.setWord (s.installed.testEntry ps0 ps1).mem (Built.kvaTable s ps1) (ptx (s.kva ps1)) 0#32 := rfl

theorem tested_mem : (s.tested ps0 ps1).mem =
    Radix.setWord (s.testRemoved ps0 ps1).mem (kernFrame s.kernPageDirectory) 0 0#32 := by
  rw [tested, setPages_mem, setMem_mem]

end KState

section Test

variable (h : Built s₀ s₁ s (ps0 :: ps1 :: rest))

include h

theorem Built.pages_ne : ps0 ≠ ps1 ∧ ps0 ∉ rest ∧ ps1 ∉ rest := by
  have hn := (Chain.nodup h.mapping.chain)
  simp only [List.nodup_cons, List.mem_cons, not_or] at hn
  exact ⟨hn.1.1, hn.1.2, hn.2.1⟩

theorem Built.fill_spares : Spares s.mem (s.installed.afterFill ps0 ps1).mem (kernFrame s₀.pgdirAt)
    (ps0 :: ps1 :: rest) := by
  have hk := h.kernFrame_free (q := ps1) (by simp)
  change Spares s.mem (Radix.setFrame s.mem (kernFrame (s.kva ps1)) _) _ _
  rw [hk]
  exact Spares.refl.setFrame (by simp) h.dir_not_free _

theorem Built.testTable_mem : (s.installed.testTable ps0 ps1).mem =
    Radix.setWord (Radix.setFrame (s.installed.afterFill ps0 ps1).mem ps0 (fun _ => 0#32)) (kernFrame s₀.pgdirAt) 0
      (page2pa ps0 ||| tablePerm) := by
  have hk : kernFrame ((s.installed.afterFill ps0 ps1).kva ps0) = ps0 := h.kernFrame_free (by simp)
  have hx : pdx pageSize = 0 := by decide
  rw [KState.testTable, KState.newTable_mem hk, hx, ← h.kern]
  rfl

theorem Built.table_spares : Spares s.mem (s.installed.testTable ps0 ps1).mem (kernFrame s₀.pgdirAt)
    (ps0 :: ps1 :: rest) := by
  rw [h.testTable_mem]
  exact (h.fill_spares.setFrame (by simp) h.dir_not_free _).setDir _

theorem Built.entry_spares : Spares s.mem (s.installed.testEntry ps0 ps1).mem (kernFrame s₀.pgdirAt)
    (ps0 :: ps1 :: rest) := by
  rw [KState.testEntry_mem]
  exact h.table_spares.setWord (by simp) h.dir_not_free _

theorem Built.low_empty : s.mem (kernFrame s₀.pgdirAt) 0 = 0#32 := by
  rw [h.entry_other (by rw [mem_regionDirs]; omega)]
  rfl

theorem Built.testPtr : kernFrame (tablePtr s.pagesCount (page2pa ps0 ||| tablePerm) pageSize) = ps0 ∧
    kernIndex (tablePtr s.pagesCount (page2pa ps0 ||| tablePerm) pageSize) = 1 ∧
    tablePtr s.pagesCount (page2pa ps0 ||| tablePerm) pageSize ≠ 0#32 := by
  obtain ⟨_, hc, hlt, _⟩ := h.free_page (q := ps0) (by simp)
  have hf := pteFrame_tableEntry (show ps0 < 1048576 by omega)
  have hk : kernFrame (tablePtr s.pagesCount (page2pa ps0 ||| tablePerm) pageSize) = ps0 := by
    rw [kernFrame_tablePtr (by omega), hf]
  refine ⟨hk, kernIndex_tablePtr _ _ _, fun hz => ?_⟩
  have h0 : kernFrame 0#32 = 65536 := by decide
  rw [hz] at hk
  omega

theorem Built.getTestTable : Returns true (getPageTable s.kernPageDirectory pageSize true)
    (s.installed.afterFill ps0 ps1) (tablePtr s.pagesCount (page2pa ps0 ||| tablePerm) pageSize)
    (s.installed.testTable ps0 ps1) := by
  have ha : pgoff s.kernPageDirectory = 0 := by
    rw [h.kern]
    exact pgoff_pgdirAt h.entry
  have hfr := fits_frames h.entry h.fits
  have hx : pdx pageSize = 0 := by decide
  have hkps : kernFrame s₀.pgdirAt ≠ ps1 := fun he => h.dir_not_free (by simp [he])
  have hentry : kernFrame (entryPtr s.kernPageDirectory (pdx pageSize)) < 65535 := by
    rw [kernFrame_entryPtr ha (by decide), h.kern]
    omega
  have hps := h.free_page (q := ps0) (by simp)
  have hk : kernFrame ((s.installed.afterFill ps0 ps1).kva ps0) = ps0 := h.kernFrame_free (by simp)
  have hpde : isPagePresent ((s.installed.afterFill ps0 ps1).pdeAt s.kernPageDirectory pageSize) = false := by
    rw [KState.pdeAt, KState.setMem_mem, h.kern, hx]
    have hk₁ : kernFrame (s.installed.kva ps1) = ps1 := h.kernFrame_free (by simp)
    rw [hk₁, Radix.setFrame_ne _ _ hkps]
    change isPagePresent (s.mem _ 0) = false
    rw [h.low_empty]
    exact present_zero
  have hcr : (s.installed.afterFill ps0 ps1).cr3 = some (kernFrame s₀.pgdirAt) := by
    rw [← h.kern]
    rfl
  have htaken : ((s.installed.afterFill ps0 ps1).takeTable ps0).cr3 = some (kernFrame s₀.pgdirAt) := hcr
  have hspare : Spares s.mem ((s.installed.afterFill ps0 ps1).takeTable ps0).mem (kernFrame s₀.pgdirAt)
      (ps0 :: ps1 :: rest) := by
    rw [KState.setPages_mem, KState.setMem_mem, hk]
    exact h.fill_spares.setFrame (by simp) h.dir_not_free _
  have himage : (s.installed.afterFill ps0 ps1).inKernelImage ps0 = false := hps.2.2.2.1
  have hzero : kernFrame ((s.installed.afterFill ps0 ps1).kva ps0) < 65535 := by
    rw [hk]
    omega
  rw [← hk] at himage
  exact (returns_getPageTable ha).mpr ⟨fun _ => h.reaches hcr h.fill_spares hentry _,
    Or.inr ⟨hpde, rfl, ps0, rfl, rfl,
    rfl, fun _ => ⟨himage, h.reaches hcr h.fill_spares hzero _, h.reaches htaken hspare hentry _⟩⟩⟩

theorem Built.insertTest : Returns true (insertPage s.kernPageDirectory ps1 pageSize pteW)
    (s.installed.afterFill ps0 ps1) 0 (s.installed.testEntry ps0 ps1) := by
  obtain ⟨hf, hi, hp⟩ := h.testPtr
  have hps := h.free_page (q := ps0) (by simp)
  have hps₁ := h.free_page (q := ps1) (by simp)
  have hcr : (s.installed.testTable ps0 ps1).cr3 = some (kernFrame s₀.pgdirAt) := by
    rw [← h.kern]
    rfl
  have hread : ∀ b, (s.installed.testTable ps0 ps1).reaches
    (tablePtr s.pagesCount (page2pa ps0 ||| tablePerm) pageSize)
      b = true := h.reaches hcr h.table_spares (by omega)
  have hkps : ps0 ≠ kernFrame s₀.pgdirAt := fun he => h.dir_not_free (by simp [← he])
  have hword : (s.installed.testTable ps0 ps1).wordAt (tablePtr s.pagesCount (page2pa ps0 ||| tablePerm) pageSize) =
      0#32 := by
    rw [KState.wordAt, hf, h.testTable_mem, Radix.setWord_frame_ne _ _ hkps, Radix.setFrame_same]
  refine returns_insertPage.mpr ⟨_, _, h.getTestTable, Or.inr ⟨hp, rfl, fun _ => hread false, ?_⟩⟩
  have hadd := @Inserts.added true s.kernPageDirectory ps1 pageSize pteW
    (tablePtr s.pagesCount (page2pa ps0 ||| tablePerm) pageSize) (s.installed.testTable ps0 ps1) ?_
    (by rw [hword]; exact present_zero) (fun _ => hread true)
  · rwa [hf, hi] at hadd
  · rw [hword]
    intro he
    have h0 : pteAddr 0#32 = page2pa 0 := by decide
    have hz : 0 = ps1 := page2pa_inj (by omega) (by omega) (h0.symm.trans he)
    omega

theorem Built.counted : ((s.installed.testEntry ps0 ps1).pages ps1).refs = 1#32 := by
  have hz := h.selfTestable.getTable_refs h.mapping.chain.1 h.mapping.chain.2.1 h.getTestTable
  rw [KState.testEntry, KState.setMem_pages, KState.setPages_pages, Function.update_self, hz]
  rfl

theorem Built.seen : (s.installed.testEntry ps0 ps1).walk pageSize = some ⟨ps1, true, false⟩ ∧
    (s.installed.testEntry ps0 ps1).mem ps1 0 = 0x01010101#32 := by
  obtain ⟨hne, _, _⟩ := h.pages_ne
  have hps := h.free_page (q := ps0) (by simp)
  have hps₁ := h.free_page (q := ps1) (by simp)
  have hk₀ : kernFrame s₀.pgdirAt ≠ ps0 := fun he => h.dir_not_free (by simp [he])
  have hk₁ : kernFrame s₀.pgdirAt ≠ ps1 := fun he => h.dir_not_free (by simp [he])
  have hmem : (s.installed.testEntry ps0 ps1).mem =
      Radix.setWord (s.installed.testTable ps0 ps1).mem ps0 1 (pageEntry ps1 pteW) := KState.testEntry_mem
  have hcr : (s.installed.testEntry ps0 ps1).cr3 = some (kernFrame s₀.pgdirAt) := by
    rw [← h.kern]
    rfl
  have hpde : (s.installed.testEntry ps0 ps1).mem (kernFrame s₀.pgdirAt) 0 = page2pa ps0 ||| tablePerm := by
    rw [hmem, Radix.setWord_frame_ne _ _ hk₀, h.testTable_mem, Radix.setWord_same]
  have hpte : (s.installed.testEntry ps0 ps1).mem ps0 1 = pageEntry ps1 pteW := by
    rw [hmem, Radix.setWord_same]
  have hw : isPageWritable (page2pa ps0 ||| tablePerm) = true := by
    rw [tableEntry_eq, writable_entry (pgoff_page2pa ps0)]
    decide
  have hw₁ : isPageWritable (pageEntry ps1 pteW) = true := by
    rw [pageEntry, writable_entry (pgoff_page2pa ps1)]
    decide
  have hu₁ : isPageUser (pageEntry ps1 pteW) = false := by
    rw [pageEntry, user_entry (pgoff_page2pa ps1)]
    decide
  have hd : pdx pageSize = 0 := by decide
  have hx : ptx pageSize = 1 := by decide
  constructor
  · have hp₁ : isPagePresent (pageEntry ps1 pteW) = true := present_entry
    rw [KState.walk, hcr, walkIn, dirWalk_some, hd, hx, hpde, pteFrame_tableEntry (by omega), hpte, hw, hw₁, hu₁,
      pteFrame_pageEntry (by omega) (by decide)]
    exact ⟨present_tableEntry ps0, hp₁, by simp⟩
  · have hk : kernFrame (s.installed.kva ps1) = ps1 := h.kernFrame_free (by simp)
    rw [hmem, Radix.setWord_frame_ne _ _ (Ne.symm hne), h.testTable_mem, Radix.setWord_frame_ne _ _ (Ne.symm hk₁),
      Radix.setFrame_ne _ _ (Ne.symm hne), KState.setMem_mem, hk, Radix.setFrame_same]

theorem Built.testEntry_nextFree : ((s.installed.testEntry ps0 ps1).pages ps1).nextFree = none := by
  obtain ⟨hne, _, _⟩ := h.pages_ne
  have hstep : ((s.installed.testEntry ps0 ps1).pages ps1).nextFree =
      ((s.installed.testTable ps0 ps1).pages ps1).nextFree := KState.setRefs_nextFree _ _ _ _
  have htable : ((s.installed.testTable ps0 ps1).pages ps1).nextFree =
      (((s.installed.afterAllocs ps0 ps1).popFree ps0).pages ps1).nextFree := KState.setRefs_nextFree _ _ _ _
  rw [hstep, htable, KState.popFree_nextFree, if_neg (Ne.symm hne), KState.pushFree_nextFree, if_neg (Ne.symm hne),
    KState.popFree_nextFree, if_pos rfl]

theorem Built.removeTest :
    Returns true (removePage s.kernPageDirectory (s.kva ps1)) (s.installed.testEntry ps0 ps1) ()
    (s.installed.testRemoved ps0 ps1) := by
  have hps₁ := h.free_page (q := ps1) (by simp)
  obtain ⟨hin, hne, hpg, hwalk⟩ := h.kva_entry (q := ps1) (by simp)
  have ht := h.kvaTable_target (q := ps1) (by simp)
  obtain ⟨htl, htk, hlow, hlt⟩ := h.table hin ht
  obtain ⟨hpde, htf⟩ := pteTarget_some.mp ht
  obtain ⟨_, hpte, he⟩ := dirWalk_some.mp hwalk
  rw [htf] at hpte he
  have hframe : ps1 = pteFrame (s.mem (Built.kvaTable s ps1) (ptx (s.kva ps1))) := congrArg Entry.frame he
  have ha : pgoff s.kernPageDirectory = 0 := by
    rw [h.kern]
    exact pgoff_pgdirAt h.entry
  have hfr := fits_frames h.entry h.fits
  have hcr : (s.installed.testEntry ps0 ps1).cr3 = some (kernFrame s₀.pgdirAt) := by
    rw [← h.kern]
    rfl
  have hdir : (s.installed.testEntry ps0 ps1).pdeAt s.kernPageDirectory (s.kva ps1) =
      s.mem (kernFrame s₀.pgdirAt) (pdx (s.kva ps1)) := by
    rw [KState.pdeAt, h.kern]
    exact h.entry_spares.dir _ hne
  have hptr : (s.installed.testEntry ps0 ps1).ptePtr s.kernPageDirectory (s.kva ps1) =
      tablePtr s.pagesCount (s.mem (kernFrame s₀.pgdirAt) (pdx (s.kva ps1))) (s.kva ps1) := by
    rw [KState.ptePtr, hdir]
    rfl
  have hpf : kernFrame (tablePtr s.pagesCount (s.mem (kernFrame s₀.pgdirAt) (pdx (s.kva ps1))) (s.kva ps1)) =
      Built.kvaTable s ps1 := by
    rw [kernFrame_tablePtr (by rw [htf]; exact hlt), htf]
  have hword : (s.installed.testEntry ps0 ps1).pteAt s.kernPageDirectory (s.kva ps1) =
      s.mem (Built.kvaTable s ps1) (ptx (s.kva ps1)) := by
    rw [KState.pteAt, hptr, KState.wordAt, hpf, kernIndex_tablePtr, h.entry_spares.frames _ htl htk]
  have hread : ∀ b, (s.installed.testEntry ps0 ps1).reaches
      (tablePtr s.pagesCount (s.mem (kernFrame s₀.pgdirAt) (pdx (s.kva ps1))) (s.kva ps1)) b = true :=
    h.reaches hcr h.entry_spares (by omega)
  have hentry : (s.installed.testEntry ps0 ps1).reaches (entryPtr s.kernPageDirectory (pdx (s.kva ps1))) false =
    true := by
    refine h.reaches hcr h.entry_spares ?_ _
    rw [kernFrame_entryPtr ha (pdx_lt _), h.kern]
    omega
  have hmapped : (s.installed.testEntry ps0 ps1).mappedPage s.kernPageDirectory (s.kva ps1) = some ps1 := by
    refine mappedPage_some.mpr ⟨fun hz => ?_, ?_, hps₁.2.1, ?_⟩
    · have h0 : kernFrame 0#32 = 65536 := by decide
      rw [hptr] at hz
      rw [hz] at hpf
      omega
    · rw [hword]
      exact hpte
    · rw [hword]
      exact hframe.symm
  refine (returns_removePage ha).mpr ⟨by rw [hdir]; exact hpde, fun _ =>
    ⟨hentry, Or.inr (by rw [hptr]; exact hread _)⟩,
    Or.inr ⟨ps1, _, hmapped, fun _ => by rw [hptr]; exact hread _, ?_, rfl⟩⟩
  rw [hptr, hpf, kernIndex_tablePtr]
  exact returns_pageDecref.mpr (Or.inl ⟨h.counted, h.testEntry_nextFree, rfl⟩)

theorem Built.tested_mem : (s.installed.tested ps0 ps1).mem =
    Radix.setWord (Radix.setWord (s.installed.testEntry ps0 ps1).mem (kernFrame s₀.pgdirAt) 0 0#32)
      (Built.kvaTable s ps1) (ptx (s.kva ps1)) 0#32 := by
  obtain ⟨hin, _⟩ := h.kva_entry (q := ps1) (by simp)
  obtain ⟨_, htk, _⟩ := h.table hin (h.kvaTable_target (q := ps1) (by simp))
  rw [Radix.setWord_comm _ (Ne.symm htk), ← h.kern]
  rfl

theorem Built.selfTest : Returns true checkKernPgdirInstalled s.installed () (s.installed.tested ps0 ps1) := by
  have ha : pgoff s.kernPageDirectory = 0 := by
    rw [h.kern]
    exact pgoff_pgdirAt h.entry
  have hps₁ := h.free_page (q := ps1) (by simp)
  have hk₁ : kernFrame (s.installed.kva ps1) = ps1 := h.kernFrame_free (by simp)
  have hfr := fits_frames h.entry h.fits
  obtain ⟨hne, _, _⟩ := h.pages_ne
  have halloc : (s.installed.afterAllocs ps0 ps1).cr3 = some (kernFrame s₀.pgdirAt) := by
    rw [← h.kern]
    rfl
  have hspare : Spares s.mem (s.installed.afterAllocs ps0 ps1).mem (kernFrame s₀.pgdirAt)
    (ps0 :: ps1 :: rest) := .refl
  refine returns_checkKernPgdirInstalled.mpr ⟨ps0, ps1, s.installed.testEntry ps0 ps1,
    s.installed.testRemoved ps0 ps1,
    h.mapping.chain.1, h.mapping.chain.2.1, ?_, ?_, fun _ => ⟨?_, ?_⟩, ⟨0, h.insertTest⟩, h.counted, ⟨_, h.seen⟩,
    h.removeTest, fun _ => ?_, ?_⟩
  · rw [KState.popFree_refs, KState.popFree_refs]
    exact (h.free_page (q := ps0) (by simp)).2.2.2.2
  · rw [KState.popFree_nextFree, if_neg hne, KState.popFree_nextFree, if_pos rfl]
  · rw [hk₁]
    exact hps₁.2.2.2.1
  · exact h.reaches halloc hspare (by omega) _
  · have hcr : (s.installed.testRemoved ps0 ps1).cr3 = some (kernFrame s₀.pgdirAt) := by
      rw [← h.kern]
      rfl
    have hkf : kernFrame (entryPtr s.installed.kernPageDirectory 0) = kernFrame s₀.pgdirAt := by
      rw [KState.installed_kernPageDirectory, kernFrame_entryPtr ha (by omega), h.kern]
    have hpg : pgnum (pageAddr (983040 + kernFrame s₀.pgdirAt)) = 983040 + kernFrame s₀.pgdirAt :=
      pgnum_pageAddr (by omega)
    have hin : pdx (pageAddr (983040 + kernFrame s₀.pgdirAt)) ∈ regionDirs := by
      rw [pdx_of_pgnum, hpg, mem_regionDirs]
      omega
    have hk : kernFrame s₀.pgdirAt ≠ ps1 := fun he => h.dir_not_free (by simp [he])
    apply reaches_direct hcr (by omega)
    rw [hkf, KState.testRemoved_mem, h.walk_cleared h.entry_spares (by simp) hin, if_neg (by omega),
      h.walk_direct (by omega) (by omega), hpg, Nat.add_sub_cancel_left]
  · rw [KState.installed_kernPageDirectory, kernFrame_entryPtr ha (by omega), kernIndex_entryPtr ha (by omega)]
    rfl

theorem Built.tested_list : (s.installed.tested ps0 ps1).FreeList (ps1 :: rest) := by
  obtain ⟨_, _, hn⟩ := h.pages_ne
  obtain ⟨rest', hL, _, _, _, hlist, _⟩ := h.selfTestable.afterAllocs h.mapping.chain.1 h.mapping.chain.2.1
  obtain rfl : rest = rest' := by simpa using hL
  have htable : (s.installed.testTable ps0 ps1).FreeList rest := hlist.setMem.popFree.setMem.setRefs.setMem
  have hentry : (s.installed.testEntry ps0 ps1).FreeList rest := htable.setRefs.setMem
  have hremoved : (s.installed.testRemoved ps0 ps1).FreeList (ps1 :: rest) := hentry.setMem.setRefs.pushFree hn
  exact hremoved.setMem.setRefs

theorem Built.tested_walk (hv : pdx va ∈ regionDirs) :
    dirWalk (s.installed.tested ps0 ps1).mem (kernFrame s₀.pgdirAt) va =
      if pgnum va = 983040 + ps1 then none else dirWalk s.mem (kernFrame s₀.pgdirAt) va := by
  rw [h.tested_mem]
  exact h.walk_cleared (h.entry_spares.setDir _) (by simp) hv

end Test

theorem Built.returns_selfTest (h : Built s₀ s₁ s L) : Returns true checkKernPgdirInstalled s.installed () s' ↔
    ∃ ps0 ps1 rest, L = ps0 :: ps1 :: rest ∧ s' = s.installed.tested ps0 ps1 := by
  constructor
  · intro hr
    obtain ⟨ps0, ps1, t₁, t₂, hrun⟩ := returns_checkKernPgdirInstalled.mp hr
    obtain ⟨rest, rfl, _⟩ := h.selfTestable.afterAllocs hrun.first hrun.second
    exact ⟨ps0, ps1, rest, rfl, (hr.unique h.selfTest).2⟩
  · rintro ⟨ps0, ps1, rest, rfl, rfl⟩
    exact h.selfTest

end Cezos
