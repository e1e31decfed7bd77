import Cezos.Kernel.Initialize
import Cezos.Kernel.PrintedBuild

namespace Cezos

open Lib

variable {crt : Crt} {st : Bool} {s s' s₀ s₁ t u : KState} {pgdir va p : Word} {ps0 ps1 : ℕ} {rest : List ℕ}

/-- The states differ in the translations that the processor keeps, and nothing else. -/
abbrev Timed : KState → KState → Prop := Like fun _ _ => False

namespace Timed

theorem mem_eq (h : Timed s t) : t.mem = s.mem := funext fun f => funext fun i => h.mem f i id

theorem pageAlloc (flags : Word) : Coupled Timed (pageAlloc flags) (pageAlloc flags) := Shown.pageAlloc id flags

theorem freePage (ps : ℕ) : Coupled Timed (freePage ps) (freePage ps) :=
  .bind (Shown.read fun _ _ _ _ => rfl) fun _ => .ite (.errorLoop _)
    (Shown.modify (fun _ _ _ _ => rfl) (fun _ => rfl) (fun _ => rfl))

theorem pageDecref (ps : ℕ) : Coupled Timed (pageDecref ps) (pageDecref ps) :=
  .bind (Shown.modify (fun _ _ _ _ => rfl) (fun _ => rfl) (fun _ => rfl)) fun _ =>
    .bind (Shown.read fun _ _ _ _ => rfl) fun _ => .ite (freePage ps) (.pure ())

end Timed

/-- What `get_page_table` does with the page that it has allocated. -/
def linkTable (pgdir virtaddr : Word) (ps : ℕ) : Kern Word := do
  incRefs ps
  let pde := page2pa ps ||| tablePerm
  store (entryPtr pgdir (pdx virtaddr)) pde
  let pagetableVa ← kaddr (pteAddr pde)
  return entryPtr pagetableVa (ptx virtaddr)

/-- What `insert_page` does with the entry that it has found. -/
def insertEntry (pgdir : Word) (ps : ℕ) (vaddr permissions pte : Word) : Kern Int :=
  if pte = 0#32 then
    return -1
  else do
    let entry ← load pte
    if pteAddr entry = page2pa ps then
      let obtainedPerm := permissions
      if obtainedPerm ≠ 0#32 then
        return 0
      else
        invalidateTlb vaddr
        store pte (page2pa ps ||| permissions ||| pteP)
        return 0
    else
      if isPagePresent entry then removePage pgdir vaddr else pure ()
      incRefs ps
      store pte (page2pa ps ||| permissions ||| pteP)
      return 0

namespace Timed

theorem linkTable (pgdir va : Word) (ps : ℕ) : Coupled Timed (linkTable pgdir va ps) (linkTable pgdir va ps) :=
  .bind (Shown.incRefs ps) fun _ => .bind (Shown.store _ _) fun _ => .bind (Shown.kaddr _) fun _ => .pure _

theorem getPageTable (pgdir va : Word) (create : Bool) :
    Coupled Timed (getPageTable pgdir va create) (getPageTable pgdir va create) :=
  .bind (Shown.load id) fun _ => .ite (.errorLoop _) (.ite (.bind (pageAlloc _) fun ps => linkTable pgdir va ps)
    (.bind (Shown.kaddr _) fun _ => .pure _))

theorem searchPage (pgdir va : Word) : Coupled Timed (searchPage pgdir va) (searchPage pgdir va) :=
  .bind (getPageTable pgdir va false) fun _ => .ite (.pure _) (.bind (Shown.load id) fun _ => .ite (.pure _)
    (.bind (Shown.pa2page _) fun _ => .pure _))

theorem removePage (pgdir va : Word) : Coupled Timed (removePage pgdir va) (removePage pgdir va) := by
  refine .bind (searchPage pgdir va) fun found => ?_
  obtain ⟨ps, slot⟩ := found
  cases ps with
  | none => exact .pure ()
  | some ps => exact .bind (Shown.store _ _) fun _ => .bind (pageDecref ps) fun _ => Shown.invalidateTlb va

theorem insertEntry (pgdir : Word) (ps : ℕ) (va perm pte : Word) :
    Coupled Timed (insertEntry pgdir ps va perm pte) (insertEntry pgdir ps va perm pte) :=
  .ite (.pure _) (.bind (Shown.load id) fun _ => .ite
    (.ite (.pure _) (.bind (Shown.invalidateTlb va) fun _ => .bind (Shown.store _ _) fun _ => .pure _))
    (.ite (.bind (removePage pgdir va) fun _ => .bind (Shown.incRefs ps) fun _ => .bind (Shown.store _ _) fun _ =>
      .pure _) (.bind (Shown.incRefs ps) fun _ => .bind (Shown.store _ _) fun _ => .pure _)))

end Timed

theorem returns_linkTable (hr : Returns st (getPageTable pgdir va true) s p s')
    (hp : isPagePresent (s.wordAt (entryPtr pgdir (pdx va))) = false) :
    (st = true → s.reaches (entryPtr pgdir (pdx va)) false = true) ∧
      ∃ ps s₁, Returns st (pageAlloc 1#32) s ps s₁ ∧ Returns st (linkTable pgdir va ps) s₁ p s' := by
  obtain ⟨_, _, hl, hr⟩ := returns_bind.mp hr
  obtain ⟨rfl, rfl, hc⟩ := returns_load.mp hl
  rw [hp] at hr
  obtain ⟨ps, s₁, ha, hlink⟩ := returns_bind.mp hr
  exact ⟨hc, ps, s₁, ha, hlink⟩

theorem returns_printedTable {ps : ℕ} (hc : st = true → s.reaches (entryPtr pgdir (pdx va)) false = true)
    (hp : isPagePresent (s.wordAt (entryPtr pgdir (pdx va))) = false) (ha : Returns st (pageAlloc 1#32) s ps s₁)
    (hl : Returns st (linkTable pgdir va ps) (s₁.printed crt) p s') :
    Returns st (Printed.getPageTable crt pgdir va true) s p s' := by
  have hline : Returns st (Printed.pageAlloc crt 1#32) s ps (s₁.printed crt) :=
    returns_bind.mpr ⟨ps, s₁, ha, returns_bind.mpr ⟨(), _, returns_modify.mpr rfl, returns_pure.mpr ⟨rfl, rfl⟩⟩⟩
  refine returns_bind.mpr ⟨_, s, returns_load.mpr ⟨rfl, rfl, hc⟩, ?_⟩
  rw [hp]
  exact returns_bind.mpr ⟨ps, _, hline, hl⟩

theorem Timed.afterAllocs (h : Timed s t) (ps0 ps1 : ℕ) :
    Timed (s.afterAllocs ps0 ps1) (t.afterAllocs ps0 ps1) := by
  obtain ⟨m, tl, c, rfl, hm, hs⟩ := h
  exact ⟨m, tl, c, rfl, hm, hs⟩

theorem Timed.afterFill (h : Timed s t) (ps0 ps1 : ℕ) : Timed (s.afterFill ps0 ps1) (t.afterFill ps0 ps1) := by
  have hfill := (h.afterAllocs ps0 ps1).setFrame (kernFrame (s.kva ps1)) (fun _ => 0x01010101#32)
  obtain ⟨m, tl, c, rfl, _⟩ := h
  exact hfill

section Test

variable (h : Built s₀ s₁ s (ps0 :: ps1 :: rest))

include h

theorem Built.fill_empty :
    (s.installed.afterFill ps0 ps1).wordAt (entryPtr s.kernPageDirectory (pdx pageSize)) = 0#32 := by
  have ha : pgoff s.kernPageDirectory = 0 := by
    rw [h.kern]
    exact pgoff_pgdirAt h.entry
  have hx : pdx pageSize = 0 := by decide
  have hmem := h.selfTestable.fill_mem (f := kernFrame s₀.pgdirAt) h.mapping.chain.1 h.mapping.chain.2.1
    h.dir_not_free
  rw [KState.wordAt, hx, kernFrame_entryPtr ha (by omega), kernIndex_entryPtr ha (by omega), h.kern, hmem]
  exact h.low_empty

theorem Built.takenTable_mem : ((s.installed.afterFill ps0 ps1).allocZero ps0).mem =
    Radix.setFrame (Radix.setFrame s.mem ps1 (fun _ => 0x01010101#32)) ps0 (fun _ => 0#32) := by
  have hk₀ : kernFrame ((s.installed.afterFill ps0 ps1).kva ps0) = ps0 := h.kernFrame_free (by simp)
  have hk₁ : kernFrame (s.installed.kva ps1) = ps1 := h.kernFrame_free (by simp)
  rw [KState.setMem_mem, hk₀]
  change Radix.setFrame (Radix.setFrame s.mem (kernFrame (s.installed.kva ps1)) _) ps0 _ = _
  rw [hk₁]

theorem Built.takesTable : Returns true (pageAlloc 1#32) (s.installed.afterFill ps0 ps1) ps0
      ((s.installed.afterFill ps0 ps1).allocZero ps0) ∧
    Returns true (linkTable s.kernPageDirectory pageSize ps0) ((s.installed.afterFill ps0 ps1).allocZero ps0)
      (tablePtr s.pagesCount (page2pa ps0 ||| tablePerm) pageSize) (s.installed.testTable ps0 ps1) := by
  obtain ⟨_, ps, z, hz, hlink⟩ := returns_linkTable h.getTestTable (by rw [h.fill_empty]; exact present_zero)
  obtain ⟨hl, rfl, _⟩ := (returns_pageAlloc_zero (by decide)).mp hz
  obtain rfl : ps0 = ps := Option.some.inj hl
  exact ⟨hz, hlink⟩

theorem Built.fillsEntry : Returns true (insertEntry s.kernPageDirectory ps1 pageSize pteW
    (tablePtr s.pagesCount (page2pa ps0 ||| tablePerm) pageSize)) (s.installed.testTable ps0 ps1) 0
      (s.installed.testEntry ps0 ps1) := by
  obtain ⟨_, _, hg, he⟩ := returns_bind.mp h.insertTest
  obtain ⟨rfl, rfl⟩ := hg.unique h.getTestTable
  exact he

/-- Once the line about its table is printed, the call goes on as the one without lines does from a state that has
this screen from the beginning. -/
theorem Built.printedInsert (hd : kernFrame s₀.pgdirAt ≠ crt.frame) (hv : crt.frame ∉ s₀.bootList.take 66)
    (h₀ : crt.frame ≠ ps0) (h₁ : crt.frame ≠ ps1) (hu : Timed s.installed u) :
    ∃ m x, Like crt.screen s { s with mem := m } ∧ Built s₀ s₁ { s with mem := m } (ps0 :: ps1 :: rest) ∧
      Returns true (Printed.insertPage crt s.kernPageDirectory ps1 pageSize pteW) (u.afterFill ps0 ps1) 0 x ∧
      Timed (KState.testEntry (KState.installed { s with mem := m }) ps0 ps1) x := by
  obtain ⟨halloc, _⟩ := h.takesTable
  have hfill := hu.afterFill ps0 ps1
  obtain ⟨a, ha, hza⟩ := (Timed.pageAlloc 1#32).forward _ _ _ _ _ hfill halloc
  have hamem : a.mem = Radix.setFrame (Radix.setFrame s.mem ps1 (fun _ => 0x01010101#32)) ps0 (fun _ => 0#32) :=
    hza.mem_eq.trans h.takenTable_mem
  have hafr : a.mem crt.frame = s.mem crt.frame := by
    rw [hamem, Radix.setFrame_ne _ _ h₀, Radix.setFrame_ne _ _ h₁]
  let m := Radix.setFrame s.mem crt.frame ((a.printed crt).mem crt.frame)
  have hscreen : m crt.frame = (a.printed crt).mem crt.frame := Radix.setFrame_same _ _
  have hlike : Like crt.screen s { s with mem := m } := by
    refine ⟨m, s.tlb, s.clock, rfl, fun f i hs => ?_, Or.inr (h.mapping.setup.loaded.trans h.prepared.loaded)⟩
    by_cases hf : f = crt.frame
    · subst hf
      rw [hscreen, printed_word _ hs, hafr]
    · exact congrFun (Radix.setFrame_ne _ _ hf) i
  have ht : Built s₀ s₁ { s with mem := m } (ps0 :: ps1 :: rest) := h.like hlike hd hv
  obtain ⟨_, hlink⟩ := ht.takesTable
  have hsame : Timed ((KState.afterFill (KState.installed { s with mem := m }) ps0 ps1).allocZero ps0)
      (a.printed crt) := by
    have hmem : (a.printed crt).mem =
        ((KState.afterFill (KState.installed { s with mem := m }) ps0 ps1).allocZero ps0).mem := by
      rw [ht.takenTable_mem]
      funext f
      by_cases hf : f = crt.frame
      · rw [hf, Radix.setFrame_ne _ _ h₀, Radix.setFrame_ne _ _ h₁]
        exact hscreen.symm
      · have hmf : m f = s.mem f := Radix.setFrame_ne _ _ hf
        rw [KState.printed_mem, Radix.setFrame_ne _ _ hf, hamem]
        simp only [Radix.setFrame, hmf]
    obtain ⟨_, _, _, rfl, _⟩ := hza
    exact ⟨_, _, _, rfl, fun f i _ => congrFun (congrFun hmem f) i, Or.inl fun _ _ => id⟩
  obtain ⟨y, hy, hty⟩ := (Timed.linkTable _ _ _).forward _ _ _ _ _ hsame hlink
  obtain ⟨x, hx, htx⟩ := (Timed.insertEntry _ _ _ _ _).forward _ _ _ _ _ hty ht.fillsEntry
  have hpde : (u.afterFill ps0 ps1).wordAt (entryPtr s.kernPageDirectory (pdx pageSize)) = 0#32 := by
    rw [← h.fill_empty, KState.wordAt, KState.wordAt, hfill.mem_eq]
  obtain ⟨hc, _⟩ := returns_linkTable h.getTestTable (by rw [h.fill_empty]; exact present_zero)
  have htable := returns_printedTable (fun hst => (hfill.reaches _ _).symm.trans (hc hst))
    (by rw [hpde]; exact present_zero) ha hy
  exact ⟨m, x, hlike, ht, returns_bind.mpr ⟨_, _, htable, hx⟩, htx⟩

theorem Built.test : SelfTest true s.installed ps0 ps1 (s.installed.testEntry ps0 ps1)
    (s.installed.testRemoved ps0 ps1) (s.installed.tested ps0 ps1) := by
  obtain ⟨p0, p1, t₁, t₂, hrun⟩ := returns_checkKernPgdirInstalled.mp h.selfTest
  obtain rfl : ps0 = p0 := Option.some.inj (h.mapping.chain.1.symm.trans hrun.first)
  obtain rfl : ps1 = p1 := Option.some.inj (h.mapping.chain.2.1.symm.trans hrun.second)
  obtain ⟨r, hins⟩ := hrun.inserted
  obtain ⟨_, rfl⟩ := hins.unique h.insertTest
  obtain ⟨_, rfl⟩ := hrun.removed.unique h.removeTest
  exact hrun

/-- What is on the screen before the test is all that differs after it. -/
theorem Built.tested_overprinted (hlike : Like crt.screen s t) (hd : kernFrame s₀.pgdirAt ≠ crt.frame)
    (ht : Built s₀ s₁ t (ps0 :: ps1 :: rest)) :
    Overprinted crt (s.installed.tested ps0 ps1) (t.installed.tested ps0 ps1) := by
  have hkva : t.kva ps1 = s.kva ps1 := by
    obtain ⟨_, _, _, rfl, _⟩ := hlike
    rfl
  have htable : Built.kvaTable t ps1 = Built.kvaTable s ps1 := by
    rw [Built.kvaTable, Built.kvaTable, KState.pdeAt, KState.pdeAt, h.kern, ht.kern, hkva]
    exact congrArg pteFrame (hlike.mem _ _ (Crt.not_screen hd))
  have hfill : ∀ f i, ¬ crt.screen f i →
      (t.installed.afterFill ps0 ps1).mem f i = (s.installed.afterFill ps0 ps1).mem f i := by
    have hk : kernFrame (s.installed.kva ps1) = ps1 := h.kernFrame_free (by simp)
    have hk' : kernFrame (t.installed.kva ps1) = ps1 := ht.kernFrame_free (by simp)
    rw [KState.setMem_mem, KState.setMem_mem, hk, hk']
    exact setFrame_apart hlike.mem _ _
  have hmem : ∀ f i, ¬ crt.screen f i →
      (t.installed.tested ps0 ps1).mem f i = (s.installed.tested ps0 ps1).mem f i := by
    rw [h.tested_mem, ht.tested_mem, htable, hkva, KState.testEntry_mem, KState.testEntry_mem, h.testTable_mem,
      ht.testTable_mem]
    have htab := setWord_apart (setFrame_apart hfill ps0 (fun _ => 0#32)) (kernFrame s₀.pgdirAt) 0
      (page2pa ps0 ||| tablePerm)
    exact setWord_apart (setWord_apart (setWord_apart htab _ _ _) _ _ _) _ _ _
  obtain ⟨_, _, _, rfl, _⟩ := hlike
  exact ⟨_, _, _, rfl, hmem⟩

theorem Built.printedSelfTest (hd : kernFrame s₀.pgdirAt ≠ crt.frame) (hv : crt.frame ∉ s₀.bootList.take 66)
    (h₀ : crt.frame ≠ ps0) (h₁ : crt.frame ≠ ps1) (hu : Timed s.installed u) :
    ∃ x, Returns true (Printed.checkKernPgdirInstalled crt) u () x ∧
      Overprinted crt (s.installed.tested ps0 ps1) x := by
  have hplain : 0#32 &&& pageZeroFilled ≠ pageZeroFilled := by decide
  have hoff : pgoff pageSize / 4 = 0 := by decide
  have hline : Printed.pageAlloc crt 0#32 = pageAlloc 0#32 := by
    simp only [Printed.pageAlloc, if_neg hplain]
    exact Prog.bind_pure
  obtain ⟨m, x, hlike, ht, hins, hx⟩ := h.printedInsert hd hv h₀ h₁ hu
  obtain ⟨y, hrem, hy⟩ := (Timed.removePage _ _).forward _ _ _ _ _ hx ht.removeTest
  have htest := h.test
  obtain ⟨hwalk, hword⟩ := ht.seen
  have hfilled : (u.afterAllocs ps0 ps1).inKernelImage (kernFrame (s.kva ps1)) = false ∧
      (u.afterAllocs ps0 ps1).reaches (s.kva ps1) true = true := by
    rw [← (hu.afterAllocs ps0 ps1).image, ← (hu.afterAllocs ps0 ps1).reaches]
    exact htest.filled rfl
  have hcount : (x.pages ps1).refs = 1#32 := by
    have hc := ht.counted
    obtain ⟨_, _, _, rfl, _⟩ := hx
    exact hc
  have hkva : x.kva ps1 = s.kva ps1 := by
    obtain ⟨_, _, _, rfl, _⟩ := hx
    rfl
  have hseen : x.walk pageSize = some ⟨ps1, true, false⟩ ∧ x.mem ps1 0 = 0x01010101#32 := by
    rw [hx.walk, hx.mem_eq]
    exact ⟨hwalk, hword⟩
  have hreached : y.reaches (entryPtr s.kernPageDirectory 0) true = true := by
    rw [← hy.reaches]
    exact ht.test.reached rfl
  have hlast : Overprinted crt (KState.tested (KState.installed { s with mem := m }) ps0 ps1)
      ((y.setWord (kernFrame (entryPtr s.kernPageDirectory 0)) (kernIndex (entryPtr s.kernPageDirectory 0))
        0#32).setRefs ps0 0#32) := by
    rw [ht.test.last]
    obtain ⟨_, _, _, hy', hm, _⟩ := hy.setWord (kernFrame (entryPtr s.kernPageDirectory 0))
      (kernIndex (entryPtr s.kernPageDirectory 0)) 0#32
    rw [hy']
    exact ⟨_, _, _, rfl, fun f i _ => hm f i id⟩
  obtain ⟨um, tl, c, rfl, _⟩ := hu
  refine ⟨((y.setWord (kernFrame (entryPtr s.kernPageDirectory 0)) (kernIndex (entryPtr s.kernPageDirectory 0))
    0#32).setRefs ps0 0#32).printed crt, ?_,
    (h.tested_overprinted hlike hd ht).trans (hlast.trans (.printed _ crt))⟩
  simp only [Printed.checkKernPgdirInstalled, Printed.cprintf, hline, returns_bind, returns_pageAlloc_plain hplain,
    returns_freePage, returns_page2kva, returns_memsetPage, returns_read, returns_ite, returns_errorLoop, and_false,
    false_or, returns_loadUser, returns_store, returns_modify, hoff]
  exact ⟨ps0, _, ⟨htest.first, rfl⟩, ps1, _, ⟨htest.second, rfl⟩, (), _, ⟨htest.unused, htest.unlinked, rfl⟩, _, _,
    ⟨rfl, rfl⟩, (), _, ⟨rfl, fun _ => hfilled⟩, _, _, ⟨rfl, rfl⟩, 0, x, hins, _, _, ⟨rfl, rfl⟩, not_not.mpr hcount,
    _, _, ⟨_, hseen.1, hseen.2.symm, rfl⟩, not_not.mpr rfl, _, _, ⟨hkva.symm, rfl⟩, (), y, hrem, (), _,
    ⟨rfl, fun _ => hreached⟩, (), _, rfl, rfl⟩

end Test

theorem returns_printedMemory : Returns st (Printed.initializeMemory crt) s₀ () s' ↔
    ∃ s, Returns st (Printed.buildKernPgdir crt) s₀ () s ∧ Returns st (Printed.checkKernPgdirInstalled crt)
      { (s.loadDir (kernFrame s.kernPageDirectory)).printed crt with cr0 := (s.cr0 ||| cr0Mask) &&& ~~~cr0Clear }
      () s' := by
  simp only [Printed.initializeMemory, Printed.cprintf, returns_bind, returns_read, lcr3, lcr0, returns_modify]
  constructor
  · rintro ⟨_, s, h₁, _, _, ⟨rfl, rfl⟩, _, _, rfl, _, _, rfl, _, _, ⟨rfl, rfl⟩, _, _, rfl, h₂⟩
    exact ⟨_, h₁, h₂⟩
  · rintro ⟨s, h₁, h₂⟩
    exact ⟨(), s, h₁, _, _, ⟨rfl, rfl⟩, (), _, rfl, (), _, rfl, _, _, ⟨rfl, rfl⟩, (), _, rfl, h₂⟩

theorem printedMemory_bounds (h : BootEntry s₀) (hr : Returns true (Printed.initializeMemory crt) s₀ () s') :
    s₀.detectedCount ≤ 65535 ∧ s₀.detectedBasemem ≤ 256 := by
  obtain ⟨s, hbuild, _⟩ := returns_printedMemory.mp hr
  obtain ⟨s₁, s₂, t, L, hregions, hcheck, _⟩ := printedBuild_regions h hbuild
  exact ⟨hregions.count_le hcheck, hregions.basemem⟩

/-- The boot with its lines returns as well, in a state that differs on the screen. -/
theorem printedMemory_exists (h : BootEntry s₀) (hp : Promised s₀) (hc : s₀.detectedCount ≤ 65535)
    (hb : s₀.detectedBasemem ≤ 256) (hv : crt.frame ∉ s₀.bootList.take 68) :
    ∃ s t, Returns true initializeMemory s₀ () s ∧ Returns true (Printed.initializeMemory crt) s₀ () t ∧
      Overprinted crt s t := by
  have henough := enough_of_lowFree h hp.fits (Nat.le_trans (by decide) hp.low)
  have hv' : crt.frame ∉ s₀.bootList.take 66 := fun hm => hv (List.take_subset_take_left _ (by decide) hm)
  have hd := crt.dir_ne h hp.fits
  obtain ⟨s₁, s, t, L, hbuilt, hbuild, hlike, hr⟩ := printedBuild_exists h hp.fits hb hc henough hv'
  obtain ⟨s', hmemory⟩ : ∃ s', Returns true initializeMemory s₀ () s' := by
    obtain ⟨_, _, _, _, _, _, hmemory⟩ := initializeMemory_exists h hp hc hb
    exact ⟨_, hmemory⟩
  obtain ⟨_, hbuild', hcheck⟩ := returns_initializeMemory.mp hmemory
  obtain ⟨_, rfl⟩ := hbuild.unique hbuild'
  obtain ⟨ps0, ps1, rest, rfl, htested⟩ := hbuilt.returns_selfTest.mp hcheck
  obtain ⟨T, hT, hle⟩ := hbuilt.mapping.taken_le
  have hnext : ∀ q ∈ [ps0, ps1], crt.frame ≠ q := by
    intro q hq he
    apply hv
    have hsplit : s₀.bootList = (T ++ [ps0, ps1]) ++ rest := by
      rw [hT, List.append_assoc]
      rfl
    rw [hsplit, List.take_append, List.take_of_length_le (by simp; omega), he]
    exact List.mem_append_left _ (List.mem_append_right _ hq)
  have hcr : t.cr3 = none := by
    obtain ⟨_, _, _, rfl, _⟩ := hlike
    exact hbuilt.mapping.setup.loaded.trans hbuilt.prepared.loaded
  let u : KState :=
    { (t.loadDir (kernFrame t.kernPageDirectory)).printed crt with cr0 := (t.cr0 ||| cr0Mask) &&& ~~~cr0Clear }
  have hlt : Like crt.screen t { t with mem := u.mem } :=
    ⟨u.mem, t.tlb, t.clock, rfl, fun f i hs => printed_word _ hs, Or.inr hcr⟩
  have ht := hbuilt.like hlike hd hv'
  have ht' := ht.like hlt hd hv'
  obtain ⟨x, hx, hshown⟩ := ht'.printedSelfTest (u := u) hd hv' (hnext ps0 (by simp)) (hnext ps1 (by simp))
    ⟨u.mem, u.tlb, u.clock, rfl, fun _ _ _ => rfl, Or.inl fun _ _ => id⟩
  refine ⟨s', x, hmemory, returns_printedMemory.mpr ⟨t, hr, hx⟩, ?_⟩
  rw [htested]
  exact ((hbuilt.tested_overprinted hlike hd ht).trans (ht.tested_overprinted hlt hd ht')).trans hshown

theorem initializeMemory_returns_iff (crt : Crt) (h : BootEntry s₀) (hp : Promised s₀) :
    ((∃ s, Returns true (Printed.initializeMemory crt) s₀ () s) →
      s₀.detectedCount ≤ 65535 ∧ s₀.detectedBasemem ≤ 256) ∧
    (s₀.detectedCount ≤ 65535 ∧ s₀.detectedBasemem ≤ 256 ∧ crt.frame ∉ s₀.bootList.take 68 →
      ∃ s, Returns true (Printed.initializeMemory crt) s₀ () s) := by
  constructor
  · rintro ⟨s, hr⟩
    exact printedMemory_bounds h hr
  · rintro ⟨hc, hb, hv⟩
    obtain ⟨_, t, _, hr, _⟩ := printedMemory_exists h hp hc hb hv
    exact ⟨t, hr⟩

theorem initializeMemory_returns_iff_small :
    ∃ s, Returns true (Printed.initializeMemory blankScreen) smallMachine () s := by
  obtain ⟨_, hb, hc⟩ := smallMachine_fits
  exact (initializeMemory_returns_iff blankScreen smallMachine_entry smallMachine_promised).2
    ⟨by omega, by omega, blankScreen_spared 68⟩

def fullMachine : KState := entryState (nvramOf 0#16 3840#16)

/-- The last page of 256 MB is detected and not mapped. -/
theorem not_initializeMemory_returns : ¬ ∀ (crt : Crt) (s₀ : KState), BootEntry s₀ → Promised s₀ →
    ∃ s, Returns true (Printed.initializeMemory crt) s₀ () s := by
  intro hall
  have hentry : BootEntry fullMachine := entryState_entry _
  have hfits : Fits fullMachine := by decide +kernel
  have hcount : fullMachine.detectedCount = 65536 := by decide +kernel
  have hbase : fullMachine.detectedBasemem = 160 := by decide +kernel
  have hl := lowFree_ge fullMachine (by omega)
  have hu := fits_frames hentry hfits
  obtain ⟨s, hr⟩ := hall blankScreen fullMachine hentry ⟨hfits, by omega, by omega, by omega⟩
  have := (printedMemory_bounds hentry hr).1
  omega

end Cezos
