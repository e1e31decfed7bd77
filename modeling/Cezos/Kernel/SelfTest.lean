import Cezos.Kernel.Boot
import Cezos.Kernel.CallInv
import Cezos.Kernel.Walk

namespace Cezos

open Lib

variable {st : Bool} {s s' : KState} {ps0 ps1 : ℕ} {L : List ℕ} {m m' : ℕ → ℕ → Word} {d : ℕ} {va : Word}

namespace KState

abbrev afterAllocs (s : KState) (ps0 ps1 : ℕ) : KState := ((s.popFree ps0).popFree ps1).pushFree ps0

abbrev afterFill (s : KState) (ps0 ps1 : ℕ) : KState :=
  (s.afterAllocs ps0 ps1).setFrame (kernFrame (s.kva ps1)) (fun _ => 0x01010101#32)

end KState

structure SelfTest (st : Bool) (s : KState) (ps0 ps1 : ℕ) (t₁ t₂ s' : KState) : Prop where
  first : s.pageFreeList = some ps0
  second : (s.popFree ps0).pageFreeList = some ps1
  unused : (((s.popFree ps0).popFree ps1).pages ps0).refs = 0#32
  unlinked : (((s.popFree ps0).popFree ps1).pages ps0).nextFree = none
  filled : st = true → (s.afterAllocs ps0 ps1).inKernelImage (kernFrame (s.kva ps1)) = false ∧
    (s.afterAllocs ps0 ps1).reaches (s.kva ps1) true = true
  inserted : ∃ r, Returns st (insertPage s.kernPageDirectory ps1 pageSize pteW) (s.afterFill ps0 ps1) r t₁
  counted : (t₁.pages ps1).refs = 1#32
  seen : ∃ e, t₁.walk pageSize = some e ∧ t₁.mem e.frame 0 = 0x01010101#32
  removed : Returns st (removePage s.kernPageDirectory (t₁.kva ps1)) t₁ () t₂
  reached : st = true → t₂.reaches (entryPtr s.kernPageDirectory 0) true = true
  last : s' = (t₂.setWord (kernFrame (entryPtr s.kernPageDirectory 0)) (kernIndex (entryPtr s.kernPageDirectory 0))
    0#32).setRefs ps0 0#32

theorem returns_checkKernPgdirInstalled : Returns st checkKernPgdirInstalled s () s' ↔
    ∃ ps0 ps1 t₁ t₂, SelfTest st s ps0 ps1 t₁ t₂ s' := by
  have hplain : 0#32 &&& pageZeroFilled ≠ pageZeroFilled := by decide
  have hoff : pgoff pageSize / 4 = 0 := by decide
  constructor
  · intro h
    unfold checkKernPgdirInstalled at h
    obtain ⟨ps0, _, ha, h⟩ := returns_bind.mp h
    obtain ⟨h₁, rfl⟩ := (returns_pageAlloc_plain hplain).mp ha
    obtain ⟨ps1, _, ha, h⟩ := returns_bind.mp h
    obtain ⟨h₂, rfl⟩ := (returns_pageAlloc_plain hplain).mp ha
    obtain ⟨_, _, hf, h⟩ := returns_bind.mp h
    obtain ⟨h₃, h₄, rfl⟩ := returns_freePage.mp hf
    obtain ⟨_, _, hk, h⟩ := returns_bind.mp h
    obtain ⟨rfl, rfl⟩ := returns_page2kva.mp hk
    obtain ⟨_, _, hm, h⟩ := returns_bind.mp h
    obtain ⟨rfl, h₅⟩ := returns_memsetPage.mp hm
    obtain ⟨_, _, hp, h⟩ := returns_bind.mp h
    obtain ⟨rfl, rfl⟩ := returns_read.mp hp
    obtain ⟨r, t₁, h₆, h⟩ := returns_bind.mp h
    obtain ⟨_, _, hc, h⟩ := returns_bind.mp h
    obtain ⟨rfl, rfl⟩ := returns_read.mp hc
    simp only [returns_ite, returns_errorLoop, and_false, false_or, not_not] at h
    obtain ⟨h₇, h⟩ := h
    obtain ⟨_, _, hw, h⟩ := returns_bind.mp h
    obtain ⟨e, h₈, rfl, rfl⟩ := returns_loadUser.mp hw
    simp only [returns_ite, returns_errorLoop, and_false, false_or, not_not, hoff] at h
    obtain ⟨h₉, h⟩ := h
    obtain ⟨_, _, hk, h⟩ := returns_bind.mp h
    obtain ⟨rfl, rfl⟩ := returns_page2kva.mp hk
    obtain ⟨_, t₂, h₁₀, h⟩ := returns_bind.mp h
    obtain ⟨_, _, hs, h⟩ := returns_bind.mp h
    obtain ⟨rfl, h₁₁⟩ := returns_store.mp hs
    obtain rfl := returns_modify.mp h
    exact ⟨ps0, ps1, _, t₂, h₁, h₂, h₃, h₄, h₅, ⟨r, h₆⟩, h₇, ⟨e, h₈, h₉⟩, h₁₀, h₁₁, rfl⟩
  · rintro ⟨ps0, ps1, t₁, t₂, h₁, h₂, h₃, h₄, h₅, ⟨r, h₆⟩, h₇, ⟨e, h₈, h₉⟩, h₁₀, h₁₁, rfl⟩
    simp only [checkKernPgdirInstalled, returns_bind, returns_pageAlloc_plain hplain, returns_freePage,
      returns_page2kva, returns_memsetPage, returns_read, returns_ite, returns_errorLoop, and_false, false_or,
      returns_loadUser, returns_store, returns_modify, hoff]
    exact ⟨ps0, _, ⟨h₁, rfl⟩, ps1, _, ⟨h₂, rfl⟩, (), _, ⟨h₃, h₄, rfl⟩, _, _, ⟨rfl, rfl⟩, (), _, ⟨rfl, h₅⟩, _, _,
      ⟨rfl, rfl⟩, r, t₁, h₆, _, _, ⟨rfl, rfl⟩, not_not.mpr h₇, _, _, ⟨e, h₈, rfl, rfl⟩, not_not.mpr h₉, _, _,
      ⟨rfl, rfl⟩, (), t₂, h₁₀, (), _, ⟨rfl, h₁₁⟩, rfl⟩

/-- The state in which the test runs: the directory is loaded, the free list `L` is well formed, and no page on it
is used by the directory. -/
structure SelfTestable (s : KState) (L : List ℕ) : Prop where
  loaded : s.cr3 = some (kernFrame s.kernPageDirectory)
  aligned : pgoff s.kernPageDirectory = 0
  chain : s.FreeList L
  pages : ∀ q ∈ L, q < s.pagesCount ∧ q < 1048576 ∧ (s.pages q).refs = 0#32
  dir : kernFrame s.kernPageDirectory ∉ L
  tables : ∀ i < 1024, ∀ t, pteTarget (s.mem (kernFrame s.kernPageDirectory) i) = some t → t ∉ L

theorem SelfTestable.afterAllocs (h : SelfTestable s L) (h₀ : s.pageFreeList = some ps0)
    (h₁ : (s.popFree ps0).pageFreeList = some ps1) :
    ∃ rest, L = ps0 :: ps1 :: rest ∧ ps0 ≠ ps1 ∧ ps0 ∉ rest ∧ ps1 ∉ rest ∧
      (s.afterAllocs ps0 ps1).FreeList (ps0 :: rest) ∧ ∀ q ∈ L, ((s.afterAllocs ps0 ps1).pages q).refs = 0#32 := by
  have hch := h.chain
  have hnd := hch.nodup
  rw [KState.FreeList, h₀] at hch
  obtain ⟨L₁, rfl, hc₁⟩ := Chain.some_iff.mp hch
  change (s.pages ps0).nextFree = some ps1 at h₁
  rw [h₁] at hc₁
  obtain ⟨rest, rfl, hc₂⟩ := Chain.some_iff.mp hc₁
  simp only [List.nodup_cons, List.mem_cons, not_or] at hnd
  obtain ⟨⟨hne, hn₀⟩, hn₁, _⟩ := hnd
  have hlist : s.FreeList (ps0 :: ps1 :: rest) := h.chain
  have hn : ps0 ∉ rest := hn₀
  refine ⟨rest, rfl, hne, hn₀, hn₁, hlist.popFree.popFree.pushFree hn, fun q hq => ?_⟩
  rw [KState.pushFree_refs, KState.popFree_refs, KState.popFree_refs, (h.pages q hq).2.2, ite_self]

structure TestTable (s s₁ : KState) (L : List ℕ) (ps1 : ℕ) (p : Word) : Prop where
  list : ∃ L₁, s₁.FreeList L₁ ∧ ps1 ∉ L₁
  count : s₁.pagesCount = s.pagesCount
  loaded : s₁.cr3 = s.cr3
  absent : isPagePresent (s₁.wordAt p) = false
  index : kernIndex p = 1
  not_dir : kernFrame p ≠ kernFrame s.kernPageDirectory
  low : dirWalk s₁.mem (kernFrame s.kernPageDirectory) 0#32 = none
  kept : ∀ va e, dirWalk s.mem (kernFrame s.kernPageDirectory) va = some e → e.frame ∈ L → pdx va ≠ 0 ∧
    pteFrame (s.mem (kernFrame s.kernPageDirectory) (pdx va)) ≠ kernFrame p ∧
    s₁.mem (kernFrame s.kernPageDirectory) (pdx va) = s.mem (kernFrame s.kernPageDirectory) (pdx va) ∧
    s₁.mem (pteFrame (s.mem (kernFrame s.kernPageDirectory) (pdx va))) (ptx va) =
      s.mem (pteFrame (s.mem (kernFrame s.kernPageDirectory) (pdx va))) (ptx va)

theorem SelfTestable.getTable_refs (h : SelfTestable s L) (h₀ : s.pageFreeList = some ps0)
    (h₁ : (s.popFree ps0).pageFreeList = some ps1) {p : Word} {s₁ : KState}
    (hg : Returns st (getPageTable s.kernPageDirectory pageSize true) (s.afterFill ps0 ps1) p s₁) :
    (s₁.pages ps1).refs = 0#32 := by
  obtain ⟨rest, rfl, hne, _, _, _, hrefs⟩ := h.afterAllocs h₀ h₁
  have hr : ((s.afterFill ps0 ps1).pages ps1).refs = 0#32 := hrefs ps1 (by simp)
  obtain ⟨_, ⟨_, _, rfl⟩ | ⟨_, _, ps, hl, _, rfl, _⟩⟩ := (returns_getPageTable h.aligned).mp hg
  · exact hr
  · obtain rfl : ps0 = ps := Option.some.inj hl
    rw [← hr, ← KState.popFree_refs (s.afterFill ps0 ps1) ps0 ps1]
    exact (KState.setRefs_refs ..).trans (if_neg (Ne.symm hne))

theorem tablePtr_beyond {count : ℕ} {pde : Word} (h : count ≤ pteFrame pde) (va : Word) :
    tablePtr count pde va = entryPtr 0#32 (ptx va) := by
  rw [tablePtr, tableVa]
  exact congrArg (entryPtr · (ptx va)) (if_pos h)

theorem not_reaches_low (hc : s.cr3 = some d) (hn : dirWalk s.mem d 0#32 = none) {i : ℕ} (hi : i < 1024)
    (write : Bool) :
    ¬ s.reaches (entryPtr 0#32 i) write = true := by
  intro hr
  obtain ⟨e, he, _⟩ := reaches_walk hr
  have h0 : pgnum 0#32 = 0 := by decide
  have hpg : pgnum (entryPtr 0#32 i) = pgnum 0#32 := by
    rw [pgnum_eq, toNat_entryPtr (by decide) hi]
    simp only [BitVec.toNat_ofNat]
    omega
  rw [KState.walk, hc, walkIn, ← dirWalk_pageAddr, hpg, dirWalk_pageAddr, hn] at he
  cases he

theorem dirWalk_cleared {pde : Word} (hd : m d (pdx va) = pde) (hx : pdx va ≠ 0) :
    dirWalk (Radix.setWord (Radix.setWord m (pteFrame pde) (ptx va) 0#32) d 0 0#32) d va = none := by
  rw [dirWalk_none, Radix.setWord_index_ne _ _ hx]
  by_cases hself : d = pteFrame pde ∧ pdx va = ptx va
  · -- the entry for `va` is the one of its own table
    rw [← hself.1, ← hself.2, Radix.setWord_same]
    exact Or.inl present_zero
  · have hkeep : Radix.setWord m (pteFrame pde) (ptx va) 0#32 d (pdx va) = pde := by
      rw [Radix.setWord, if_neg hself, hd]
    right
    rw [hkeep, Radix.setWord]
    split
    · exact present_zero
    · rw [Radix.setWord_same]
      exact present_zero

namespace SelfTestable

section Table

variable (h : SelfTestable s L) (h₀ : s.pageFreeList = some ps0) (h₁ : (s.popFree ps0).pageFreeList = some ps1)

include h h₀ h₁

theorem fill_mem {f : ℕ} (hf : f ∉ L) : (s.afterFill ps0 ps1).mem f = s.mem f := by
  obtain ⟨rest, rfl, _⟩ := h.afterAllocs h₀ h₁
  obtain ⟨hc₁, hb₁, _⟩ := h.pages ps1 (by simp)
  have hne : f ≠ ps1 := fun he => hf (by simp [he])
  rw [KState.setMem_mem, kernFrame_kva hc₁ hb₁, Radix.setFrame_ne _ _ hne]
  rfl

theorem fill_table (hp : isPagePresent (s.mem (kernFrame s.kernPageDirectory) (pdx va)) = true) :
    (s.afterFill ps0 ps1).mem (pteFrame (s.mem (kernFrame s.kernPageDirectory) (pdx va))) =
      s.mem (pteFrame (s.mem (kernFrame s.kernPageDirectory) (pdx va))) :=
  h.fill_mem h₀ h₁ (h.tables _ (pdx_lt va) _ (pteTarget_present hp))

theorem fill_walk (va : Word) : dirWalk (s.afterFill ps0 ps1).mem (kernFrame s.kernPageDirectory) va =
    dirWalk s.mem (kernFrame s.kernPageDirectory) va := by
  refine dirWalk_congr (by rw [h.fill_mem h₀ h₁ h.dir]) (fun hp => ?_)
  rw [h.fill_table h₀ h₁ hp]

variable (hlow : ∀ va, pdx va = 0 → dirWalk s.mem (kernFrame s.kernPageDirectory) va = none)

include hlow

omit h h₀ h₁ in
theorem high_of_walk {e : Entry} (he : dirWalk s.mem (kernFrame s.kernPageDirectory) va = some e) : pdx va ≠ 0 := by
  intro hz
  rw [hlow va hz] at he
  cases he

omit h h₀ h₁ in
theorem low_absent (hp : isPagePresent (s.mem (kernFrame s.kernPageDirectory) 0) = true) {j : ℕ} (hj : j < 1024) :
    isPagePresent (s.mem (pteFrame (s.mem (kernFrame s.kernPageDirectory) 0)) j) = false := by
  have hpg : pgnum (pageAddr j) = j := pgnum_pageAddr (by omega)
  have hd : pdx (pageAddr j) = 0 := by
    rw [pdx_of_pgnum, hpg]
    omega
  have hx : ptx (pageAddr j) = j := by
    rw [ptx_of_pgnum, hpg]
    omega
  have hn := dirWalk_none.mp (hlow _ hd)
  rw [hd, hx, hp] at hn
  exact hn.resolve_left (by simp)

theorem getTable_present (hp : isPagePresent (s.mem (kernFrame s.kernPageDirectory) 0) = true)
    (hr : (s.afterFill ps0 ps1).reaches (tablePtr s.pagesCount (s.mem (kernFrame s.kernPageDirectory) 0) pageSize)
      false = true) :
    TestTable s (s.afterFill ps0 ps1) L ps1
      (tablePtr s.pagesCount (s.mem (kernFrame s.kernPageDirectory) 0) pageSize) := by
  have hmem {f : ℕ} := h.fill_mem h₀ h₁ (f := f)
  have hd := hmem h.dir
  have ht := h.tables 0 (by omega) _ (pteTarget_present hp)
  have hwalk := h.fill_walk h₀ h₁
  obtain ⟨rest, rfl, hne, hn₀, hn₁, hlist, _⟩ := h.afterAllocs h₀ h₁
  have hlt : pteFrame (s.mem (kernFrame s.kernPageDirectory) 0) < s.pagesCount := by
    by_contra hge
    rw [tablePtr_beyond (Nat.not_lt.mp hge)] at hr
    exact not_reaches_low (s := s.afterFill ps0 ps1) h.loaded ((hwalk _).trans (hlow _ (by decide))) (ptx_lt _) _ hr
  have hf : kernFrame (tablePtr s.pagesCount (s.mem (kernFrame s.kernPageDirectory) 0) pageSize) =
      pteFrame (s.mem (kernFrame s.kernPageDirectory) 0) := kernFrame_tablePtr hlt
  have hi : kernIndex (tablePtr s.pagesCount (s.mem (kernFrame s.kernPageDirectory) 0) pageSize) = 1 :=
    kernIndex_tablePtr _ _ _
  refine ⟨⟨_, hlist, by simp [hn₁, Ne.symm hne]⟩, rfl, rfl, ?_, hi, ?_, ?_, ?_⟩
  · rw [KState.wordAt, hf, hi, hmem ht]
    exact low_absent hlow hp (by omega)
  · rw [hf]
    intro he
    have := low_absent hlow hp (j := 0) (by omega)
    rw [he, hp] at this
    cases this
  · rw [hwalk]
    exact hlow _ (by decide)
  · intro va e he _
    have hv := (dirWalk_some.mp he).1
    refine ⟨high_of_walk hlow he, ?_, by rw [hd], hmem (h.tables _ (pdx_lt va) _ (pteTarget_present hv)) ▸ rfl⟩
    rw [hf]
    intro hz
    have := (dirWalk_some.mp he).2.1
    rw [hz, low_absent hlow hp (ptx_lt va)] at this
    cases this

theorem getTable_new (hp : isPagePresent (s.mem (kernFrame s.kernPageDirectory) 0) = false) :
    TestTable s ((s.afterFill ps0 ps1).newTable s.kernPageDirectory pageSize ps0) L ps1
      (tablePtr s.pagesCount (page2pa ps0 ||| tablePerm) pageSize) := by
  have hmem {f : ℕ} := h.fill_mem h₀ h₁ (f := f)
  have hd := hmem h.dir
  obtain ⟨rest, rfl, hne, hn₀, hn₁, hlist, _⟩ := h.afterAllocs h₀ h₁
  obtain ⟨hc₀, hb₀, _⟩ := h.pages ps0 (by simp)
  have hpdx : pdx pageSize = 0 := by decide
  have hk₀ : kernFrame ((s.afterFill ps0 ps1).kva ps0) = ps0 := kernFrame_kva hc₀ hb₀
  have hfr := pteFrame_tableEntry hb₀
  have hf : kernFrame (tablePtr s.pagesCount (page2pa ps0 ||| tablePerm) pageSize) = ps0 :=
    (kernFrame_tablePtr (hfr.symm ▸ hc₀)).trans hfr
  have hi : kernIndex (tablePtr s.pagesCount (page2pa ps0 ||| tablePerm) pageSize) = 1 := kernIndex_tablePtr _ _ _
  have hkps : kernFrame s.kernPageDirectory ≠ ps0 := fun he => h.dir (by rw [he]; simp)
  have hzero := KState.newTable_zero hk₀ hkps pageSize
  have hdir := KState.newTable_dir hk₀ hkps pageSize
  simp only [hpdx, hd] at hdir
  have hstart : (s.afterFill ps0 ps1).FreeList (ps0 :: rest) := hlist
  refine ⟨⟨rest, hstart.newTable, hn₁⟩, rfl, rfl, ?_, hi, ?_, ?_, ?_⟩
  · rw [KState.wordAt, hf, hzero]
    exact present_zero
  · rw [hf]
    exact Ne.symm hkps
  · have hz : pdx 0#32 = 0 := by decide
    rw [dirWalk_none, hz, hdir, if_pos rfl, hfr, hzero]
    exact Or.inr present_zero
  · intro va e he _
    have hv := (dirWalk_some.mp he).1
    have ht := h.tables _ (pdx_lt va) _ (pteTarget_present hv)
    have ht₀ : pteFrame (s.mem (kernFrame s.kernPageDirectory) (pdx va)) ≠ ps0 := fun hz => ht (by rw [hz]; simp)
    have hva : pdx va ≠ 0 := high_of_walk hlow he
    refine ⟨hva, by rw [hf]; exact ht₀, (hdir _).trans (if_neg hva), ?_⟩
    by_cases htk : pteFrame (s.mem (kernFrame s.kernPageDirectory) (pdx va)) = kernFrame s.kernPageDirectory
    · -- the window: the entry 0 of the directory is empty, so that it is not the entry for `va`
      have hx : ptx va ≠ 0 := by
        intro hx
        have hm' := (dirWalk_some.mp he).2.1
        rw [htk, hx, hp] at hm'
        cases hm'
      rw [htk, hdir, if_neg hx]
    · rw [KState.newTable_frame hk₀ ht₀ htk]
      exact congrFun (hmem ht) _

theorem getTable {p : Word} {s₁ : KState}
    (hg : Returns true (getPageTable s.kernPageDirectory pageSize true) (s.afterFill ps0 ps1) p s₁)
    (hr : s₁.reaches p false = true) : TestTable s s₁ L ps1 p := by
  have hpde : (s.afterFill ps0 ps1).pdeAt s.kernPageDirectory pageSize =
    s.mem (kernFrame s.kernPageDirectory) 0 := by
    have hpdx : pdx pageSize = 0 := by decide
    rw [KState.pdeAt, hpdx, h.fill_mem h₀ h₁ h.dir]
  obtain ⟨_, ⟨hp, rfl, rfl⟩ | ⟨hp, _, ps, hl, rfl, rfl, _⟩⟩ := (returns_getPageTable h.aligned).mp hg
  · have hptr : (s.afterFill ps0 ps1).ptePtr s.kernPageDirectory pageSize =
        tablePtr s.pagesCount (s.mem (kernFrame s.kernPageDirectory) 0) pageSize := by
      rw [KState.ptePtr, hpde]
      rfl
    rw [hptr] at hr ⊢
    exact h.getTable_present h₀ h₁ hlow (hpde ▸ hp) hr
  · obtain rfl : ps0 = ps := Option.some.inj hl
    exact h.getTable_new h₀ h₁ hlow (hpde ▸ hp)

end Table

end SelfTestable

theorem TestTable.removePage {p : Word} {s₁ t₂ : KState} {e : Entry} (htab : TestTable s s₁ L ps1 p)
    (h : SelfTestable s L)
    (he : dirWalk s.mem (kernFrame s.kernPageDirectory) va = some e) (hm : e.frame ∈ L)
    (hr : Returns true (removePage s.kernPageDirectory va) ((s₁.setRefs ps1 ((s₁.pages ps1).refs + 1#32)).setWord
      (kernFrame p) (kernIndex p) (pageEntry ps1 pteW)) () t₂) :
    (∃ L₁, t₂.FreeList L₁ ∧ ps1 ∉ L₁) ∨ dirWalk (Radix.setWord t₂.mem (kernFrame s.kernPageDirectory) 0 0#32)
      (kernFrame s.kernPageDirectory) va = none := by
  set kf := kernFrame s.kernPageDirectory with hkf
  set t₁ := (s₁.setRefs ps1 ((s₁.pages ps1).refs + 1#32)).setWord (kernFrame p) (kernIndex p)
    (pageEntry ps1 pteW) with ht₁
  have hm₁ : t₁.mem = Radix.setWord s₁.mem (kernFrame p) 1 (pageEntry ps1 pteW) := by
    rw [ht₁, KState.setMem_mem, KState.setPages_mem, htab.index]
  obtain ⟨hx, _, hdir, _⟩ := htab.kept _ e he hm
  have hpde : t₁.pdeAt s.kernPageDirectory va = s.mem kf (pdx va) := by
    rw [KState.pdeAt, hm₁, Radix.setWord_frame_ne _ _ (Ne.symm htab.not_dir), ← hkf, hdir]
  have hptr : t₁.ptePtr s.kernPageDirectory va = tablePtr t₁.pagesCount (s.mem kf (pdx va)) va := by
    rw [KState.ptePtr, hpde]
  obtain ⟨_, hclean, ⟨_, rfl⟩ | ⟨q, s₂, hfound, _, hdec, rfl⟩⟩ := (returns_removePage h.aligned).mp hr
  · -- nothing was found at `va`: the page stays off the list
    obtain ⟨L₁, hl₁, hn⟩ := htab.list
    exact Or.inl ⟨L₁, hl₁.setRefs.setMem, hn⟩
  · right
    obtain ⟨hnull, _, _, _⟩ := mappedPage_some.mp hfound
    rw [hptr] at hnull hclean hdec
    by_cases hlt : pteFrame (s.mem kf (pdx va)) < t₁.pagesCount
    · -- the entry for `va` was cleared
      rw [kernFrame_tablePtr hlt, kernIndex_tablePtr] at hdec
      have hm₂ : s₂.mem = Radix.setWord t₁.mem (pteFrame (s.mem kf (pdx va))) (ptx va) 0#32 := by
        rcases returns_pageDecref.mp hdec with ⟨_, _, rfl⟩ | ⟨_, rfl⟩ <;> rfl
      rw [KState.dropTlb_mem, hm₂]
      exact dirWalk_cleared hpde hx
    · -- the table lies beyond the managed memory, so that `search_page` reads at an address below 4 MB
      have hlow : dirWalk t₁.mem kf 0#32 = none := by
        rw [← htab.low]
        refine dirWalk_congr ?_ (fun _ => ?_)
        · rw [hm₁, Radix.setWord_frame_ne _ _ (Ne.symm htab.not_dir)]
        · rw [hm₁, Radix.setWord_index_ne _ _ (by decide)]
      have hreach := (hclean rfl).2.resolve_left hnull
      rw [tablePtr_beyond (Nat.not_lt.mp hlt)] at hreach
      exact absurd hreach (not_reaches_low (s := t₁) (htab.loaded.trans h.loaded) hlow (ptx_lt va) _)

theorem selfTest_changes (h : SelfTestable s L) (hr : Returns true checkKernPgdirInstalled s () s') :
    ¬ ((∀ q, s'.OnFreeList q ↔ s.OnFreeList q) ∧ ∀ va, dirWalk s'.mem (kernFrame s.kernPageDirectory) va =
      dirWalk s.mem (kernFrame s.kernPageDirectory) va) := by
  rintro ⟨hset, hwalk⟩
  obtain ⟨ps0, ps1, t₁, t₂, hrun⟩ := returns_checkKernPgdirInstalled.mp hr
  obtain ⟨rest, rfl, _⟩ := h.afterAllocs hrun.first hrun.second
  obtain ⟨hc₁, hb₁, _⟩ := h.pages ps1 (by simp)
  have hlast : s'.mem = Radix.setWord t₂.mem (kernFrame s.kernPageDirectory) 0 0#32 := by
    rw [hrun.last, KState.setPages_mem, KState.setMem_mem, kernFrame_entryPtr h.aligned (by omega),
      kernIndex_entryPtr h.aligned (by omega)]
  -- the entry 0 is empty at the end, so that nothing below 4 MB was mapped at the start
  have hlow : ∀ va, pdx va = 0 → dirWalk s.mem (kernFrame s.kernPageDirectory) va = none := by
    intro va hva
    rw [← hwalk, dirWalk_none, hlast, hva, Radix.setWord_same]
    exact Or.inl present_zero
  obtain ⟨r, hins⟩ := hrun.inserted
  obtain ⟨p, s₁, hg, hins⟩ := returns_insertPage.mp hins
  have hrefs := h.getTable_refs hrun.first hrun.second hg
  rcases hins with ⟨_, _, rfl⟩ | ⟨_, _, hread, hins⟩
  · rw [hrun.counted] at hrefs
    cases hrefs
  have htab := h.getTable hrun.first hrun.second hlow hg (hread rfl)
  cases hins with
  | already _ _ =>
    rw [hrun.counted] at hrefs
    cases hrefs
  | rewritten _ hp _ => exact absurd hp (by decide)
  | replaced _ hn _ _ =>
    rw [htab.absent] at hn
    cases hn
  | added _ _ _ =>
    have hkva : ((s₁.setRefs ps1 ((s₁.pages ps1).refs + 1#32)).setWord (kernFrame p) (kernIndex p)
        (pageEntry ps1 pteW)).kva ps1 = s.kva ps1 := by
      rw [KState.kva, KState.kva]
      exact congrArg (fun n => if n ≤ _ then _ else _) htab.count
    obtain ⟨e, hwe, hframe⟩ := reaches_walk (hrun.filled rfl).2
    have hwe : dirWalk s.mem (kernFrame s.kernPageDirectory) (s.kva ps1) = some e := by
      have hcr : (s.afterAllocs ps0 ps1).cr3 = some (kernFrame s.kernPageDirectory) := h.loaded
      rwa [KState.walk, hcr] at hwe
    rw [kernFrame_kva hc₁ hb₁] at hframe
    have hrem := hrun.removed
    rw [hkva] at hrem
    obtain ⟨L₁, hl₁, hn⟩ | hnone := htab.removePage h hwe (by rw [hframe]; simp) hrem
    · have hl : s'.FreeList L₁ := by
        rw [hrun.last]
        exact hl₁.setMem.setRefs
      exact hn ((onFreeList_iff hl).mp ((hset ps1).mpr ((onFreeList_iff h.chain).mpr (by simp))))
    · have hsame := hwalk (s.kva ps1)
      rw [hlast, hnone, hwe] at hsame
      cases hsame

end Cezos
