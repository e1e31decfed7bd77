import Cezos.Kernel.Kmap

namespace Cezos

open Lib

variable {st : Bool} {s s' : KState}

theorem kernFrame_eq (p : Word) : kernFrame p = (p - kernelBaseAddress).toNat / 4096 := pgnum_eq _

theorem toNat_sub_base (p : Word) : (p - kernelBaseAddress).toNat = (p.toNat + 268435456) % 4294967296 := by
  rw [BitVec.toNat_sub]
  simp only [kernelBaseAddress, BitVec.toNat_ofNat]
  omega

theorem toNat_add_base (p : Word) : (p + kernelBaseAddress).toNat = (p.toNat + 4026531840) % 4294967296 := by
  rw [BitVec.toNat_add]
  simp [kernelBaseAddress]

theorem pgoff_paddr {p : Word} (ha : pgoff p = 0) : pgoff (paddr p) = 0 := by
  have h := p.isLt
  rw [pgoff_eq] at ha ⊢
  rw [paddr, toNat_sub_base]
  omega

theorem toNat_entryPtr {table : Word} {i : ℕ} (ha : pgoff table = 0) (hi : i < 1024) :
    (entryPtr table i).toNat = table.toNat + 4 * i := by
  have h := table.isLt
  rw [pgoff_eq] at ha
  rw [entryPtr, BitVec.toNat_add, BitVec.toNat_mul]
  simp only [BitVec.toNat_ofNat]
  omega

theorem kernFrame_entryPtr {table : Word} {i : ℕ} (ha : pgoff table = 0) (hi : i < 1024) :
    kernFrame (entryPtr table i) = kernFrame table := by
  have h := table.isLt
  rw [kernFrame_eq, kernFrame_eq, toNat_sub_base, toNat_sub_base, toNat_entryPtr ha hi]
  rw [pgoff_eq] at ha
  omega

theorem kernIndex_entryPtr {table : Word} {i : ℕ} (ha : pgoff table = 0) (hi : i < 1024) :
    kernIndex (entryPtr table i) = i := by
  have h := table.isLt
  rw [kernIndex, pgoff_eq, toNat_sub_base, toNat_entryPtr ha hi]
  rw [pgoff_eq] at ha
  omega

theorem kernFrame_add_base (pa : Word) : kernFrame (pa + kernelBaseAddress) = pgnum pa := by
  rw [kernFrame, BitVec.add_sub_cancel]

theorem pgoff_add_base (pa : Word) : pgoff (pa + kernelBaseAddress) = pgoff pa := by
  have h := pa.isLt
  rw [pgoff_eq, pgoff_eq, toNat_add_base]
  omega

theorem pgoff_pteAddr (pte : Word) : pgoff (pteAddr pte) = 0 := by
  rw [pgoff_eq, toNat_pteAddr]
  omega

theorem toNat_page2pa {ps : ℕ} (h : ps < 1048576) : (page2pa ps).toNat = ps * 4096 := by
  rw [page2pa, BitVec.toNat_shiftLeft, Nat.shiftLeft_eq, pgShift]
  simp only [BitVec.toNat_ofNat]
  omega

theorem pgoff_page2pa (ps : ℕ) : pgoff (page2pa ps) = 0 := by
  rw [pgoff_eq, page2pa, BitVec.toNat_shiftLeft, Nat.shiftLeft_eq, pgShift]
  simp only [BitVec.toNat_ofNat]
  omega

theorem pgnum_page2pa {ps : ℕ} (h : ps < 1048576) : pgnum (page2pa ps) = ps := by
  rw [pgnum_eq, toNat_page2pa h]
  omega

theorem page2pa_inj {ps qs : ℕ} (hp : ps < 1048576) (hq : qs < 1048576) (h : page2pa ps = page2pa qs) :
    ps = qs := by
  rw [← pgnum_page2pa hp, ← pgnum_page2pa hq, h]

def tableVa (count : ℕ) (pde : Word) : Word :=
  if count ≤ pgnum (pteAddr pde) then 0#32 else pteAddr pde + kernelBaseAddress

def tablePtr (count : ℕ) (pde va : Word) : Word := entryPtr (tableVa count pde) (ptx va)

theorem pgoff_tableVa (count : ℕ) (pde : Word) : pgoff (tableVa count pde) = 0 := by
  unfold tableVa
  split
  · decide
  · rw [pgoff_add_base, pgoff_pteAddr]

theorem kernFrame_tablePtr {count : ℕ} {pde va : Word} (h : pteFrame pde < count) :
    kernFrame (tablePtr count pde va) = pteFrame pde := by
  rw [tablePtr, kernFrame_entryPtr (pgoff_tableVa _ _) (ptx_lt va), tableVa,
    if_neg (by rw [pteFrame] at h; omega), kernFrame_add_base, pteFrame]

theorem kernIndex_tablePtr (count : ℕ) (pde va : Word) : kernIndex (tablePtr count pde va) = ptx va :=
  kernIndex_entryPtr (pgoff_tableVa _ _) (ptx_lt va)

theorem paddr_tablePtr {count : ℕ} {pde va : Word} (h : pteFrame pde < count) :
    paddr (tablePtr count pde va) = pteAddr pde + 4#32 * BitVec.ofNat 32 (ptx va) := by
  rw [tablePtr, tableVa, if_neg (by rw [pteFrame] at h; omega), paddr, entryPtr, BitVec.add_assoc,
    BitVec.add_comm kernelBaseAddress, ← BitVec.add_assoc, BitVec.add_sub_cancel]

def KState.wordAt (s : KState) (p : Word) : Word := s.mem (kernFrame p) (kernIndex p)

theorem returns_load {p w : Word} :
    Returns st (load p) s w s' ↔
      w = s.wordAt p ∧ s' = s ∧ (st = true → s.reaches p false = true) := by
  simp only [load, returns_bind, returns_check, returns_read]
  constructor
  · rintro ⟨_, _, ⟨rfl, h⟩, rfl, rfl⟩
    exact ⟨rfl, rfl, h⟩
  · rintro ⟨rfl, rfl, h⟩
    exact ⟨(), _, ⟨rfl, h⟩, rfl, rfl⟩

theorem returns_store {p w : Word} {u : Unit} :
    Returns st (store p w) s u s' ↔
      s' = s.setWord (kernFrame p) (kernIndex p) w ∧ (st = true → s.reaches p true = true) := by
  simp only [store, returns_bind, returns_check, returns_modify]
  constructor
  · rintro ⟨_, _, ⟨rfl, h⟩, rfl⟩
    exact ⟨rfl, h⟩
  · rintro ⟨rfl, h⟩
    exact ⟨(), _, ⟨rfl, h⟩, rfl⟩

theorem returns_memset {p w : Word} {u : Unit} :
    Returns st (memset p w) s u s' ↔
      s' = s.setFrame (kernFrame p) (fun _ => w) ∧ (st = true → s.reaches p true = true) := by
  simp only [memset, returns_bind, returns_check, returns_modify]
  constructor
  · rintro ⟨_, _, ⟨rfl, h⟩, rfl⟩
    exact ⟨rfl, h⟩
  · rintro ⟨rfl, h⟩
    exact ⟨(), _, ⟨rfl, h⟩, rfl⟩

theorem returns_memsetPage {p w : Word} {u : Unit} :
    Returns st (memsetPage p w) s u s' ↔
      s' = s.setFrame (kernFrame p) (fun _ => w) ∧
        (st = true → s.inKernelImage (kernFrame p) = false ∧ s.reaches p true = true) := by
  simp only [memsetPage, returns_bind, returns_check, returns_memset]
  constructor
  · rintro ⟨_, _, ⟨rfl, h⟩, rfl, h'⟩
    exact ⟨rfl, fun hs => ⟨by simpa using h hs, h' hs⟩⟩
  · rintro ⟨rfl, h⟩
    exact ⟨(), _, ⟨rfl, fun hs => by simpa using (h hs).1⟩, rfl, fun hs => (h hs).2⟩

@[simp] theorem returns_invlpg {va : Word} {u : Unit} :
    Returns st (invlpg va) s u s' ↔ s' = s.dropTlb va := returns_modify

@[simp] theorem returns_kaddr {pa w : Word} :
    Returns st (kaddr pa) s w s' ↔
      w = (if s.pagesCount ≤ pgnum pa then 0#32 else pa + kernelBaseAddress) ∧ s' = s := returns_read

@[simp] theorem returns_pa2page {pa : Word} {r : Option ℕ} :
    Returns st (pa2page pa) s r s' ↔
      r = (if s.pagesCount ≤ pgnum pa then none else some (pgnum pa)) ∧ s' = s := returns_read

@[simp] theorem returns_incRefs {ps : ℕ} {u : Unit} :
    Returns st (incRefs ps) s u s' ↔ s' = s.setRefs ps ((s.pages ps).refs + 1#32) := returns_modify

namespace KState

abbrev popFree (s : KState) (ps : ℕ) : KState :=
  (s.setFreeList (s.pages ps).nextFree).setNextFree ps none

abbrev pushFree (s : KState) (ps : ℕ) : KState :=
  ((s.setNextFree ps s.pageFreeList).setFreeList (some ps)).setRefs ps 0#32

theorem popFree_refs (s : KState) (ps q : ℕ) : ((s.popFree ps).pages q).refs = (s.pages q).refs := by
  by_cases hq : q = ps
  · subst hq
    simp
  · simp [Function.update_of_ne hq]

theorem popFree_nextFree (s : KState) (ps q : ℕ) :
    ((s.popFree ps).pages q).nextFree = if q = ps then none else (s.pages q).nextFree := by
  by_cases hq : q = ps
  · subst hq
    simp
  · simp [hq]

theorem setRefs_refs (s : KState) (ps q : ℕ) (v : Word) :
    ((s.setRefs ps v).pages q).refs = if q = ps then v else (s.pages q).refs := by
  by_cases hq : q = ps
  · subst hq
    simp
  · simp [hq]

theorem setRefs_nextFree (s : KState) (ps q : ℕ) (v : Word) :
    ((s.setRefs ps v).pages q).nextFree = (s.pages q).nextFree := by
  by_cases hq : q = ps
  · subst hq
    simp
  · simp [Function.update_of_ne hq]

theorem pushFree_refs (s : KState) (ps q : ℕ) :
    ((s.pushFree ps).pages q).refs = if q = ps then 0#32 else (s.pages q).refs := by
  by_cases hq : q = ps
  · subst hq
    simp
  · simp [hq]

theorem pushFree_nextFree (s : KState) (ps q : ℕ) :
    ((s.pushFree ps).pages q).nextFree = if q = ps then s.pageFreeList else (s.pages q).nextFree := by
  by_cases hq : q = ps
  · subst hq
    simp
  · simp [hq]

def kva (s : KState) (ps : ℕ) : Word :=
  if s.pagesCount ≤ pgnum (page2pa ps) then 0#32 else page2pa ps + kernelBaseAddress

end KState

theorem kernFrame_kva {ps : ℕ} (h : ps < s.pagesCount) (hp : ps < 1048576) : kernFrame (s.kva ps) = ps := by
  have hp := pgnum_page2pa hp
  rw [KState.kva, if_neg (by omega), kernFrame_add_base, hp]

theorem pgoff_kva (s : KState) (ps : ℕ) : pgoff (s.kva ps) = 0 := by
  unfold KState.kva
  split
  · decide
  · rw [pgoff_add_base, pgoff_page2pa]

@[simp] theorem returns_page2kva {ps : ℕ} {w : Word} :
    Returns st (page2kva ps) s w s' ↔ w = s.kva ps ∧ s' = s := returns_kaddr

theorem returns_firstFreePage {ps : ℕ} :
    Returns st firstFreePage s ps s' ↔ s.pageFreeList = some ps ∧ s' = s.popFree ps := by
  simp only [firstFreePage, returns_bind, returns_read, returns_modify]
  constructor
  · rintro ⟨_, s, ⟨rfl, rfl⟩, next, s₁, h, _, _, rfl, h'⟩
    cases hl : s.pageFreeList with
    | none =>
      rw [hl] at h'
      exact absurd h' returns_errorLoop
    | some p =>
      simp only [hl, nextFreeOf, returns_read, returns_bind, returns_modify] at h h'
      obtain ⟨rfl, rfl⟩ := h
      obtain ⟨_, _, rfl, h'⟩ := h'
      obtain ⟨rfl, rfl⟩ := returns_pure.mp h'
      exact ⟨rfl, rfl⟩
  · rintro ⟨hl, rfl⟩
    refine ⟨_, _, ⟨rfl, rfl⟩, (s.pages ps).nextFree, s, ?_, (), _, rfl, ?_⟩
    · rw [hl]
      exact returns_read.mpr ⟨rfl, rfl⟩
    · simp only [hl, returns_bind, returns_modify]
      exact ⟨(), _, rfl, returns_pure.mpr ⟨rfl, rfl⟩⟩

theorem returns_pageAlloc_plain {ps : ℕ} {flags : Word} (hf : flags &&& pageZeroFilled ≠ pageZeroFilled) :
    Returns st (pageAlloc flags) s ps s' ↔ s.pageFreeList = some ps ∧ s' = s.popFree ps := by
  simp only [pageAlloc, returns_bind, returns_firstFreePage, if_neg hf]
  constructor
  · rintro ⟨p, _, ⟨hl, rfl⟩, h⟩
    obtain ⟨rfl, rfl⟩ := returns_pure.mp h
    exact ⟨hl, rfl⟩
  · rintro ⟨hl, rfl⟩
    exact ⟨ps, _, ⟨hl, rfl⟩, returns_pure.mpr ⟨rfl, rfl⟩⟩

theorem returns_pageAlloc_zero {ps : ℕ} {flags : Word} (hf : flags &&& pageZeroFilled = pageZeroFilled) :
    Returns st (pageAlloc flags) s ps s' ↔
      s.pageFreeList = some ps ∧
        s' = (s.popFree ps).setFrame (kernFrame (s.kva ps)) (fun _ => 0#32) ∧
        (st = true → s.inKernelImage (kernFrame (s.kva ps)) = false ∧ s.reaches (s.kva ps) true = true) := by
  simp only [pageAlloc, returns_bind, returns_firstFreePage, if_pos hf, returns_page2kva,
    returns_memsetPage]
  constructor
  · rintro ⟨p, _, ⟨hl, rfl⟩, _, _, ⟨rfl, rfl⟩, _, _, ⟨rfl, hc⟩, h⟩
    obtain ⟨rfl, rfl⟩ := returns_pure.mp h
    exact ⟨hl, rfl, hc⟩
  · rintro ⟨hl, rfl, hc⟩
    exact ⟨ps, _, ⟨hl, rfl⟩, _, _, ⟨rfl, rfl⟩, (), _, ⟨rfl, hc⟩, returns_pure.mpr ⟨rfl, rfl⟩⟩

theorem returns_freePage {ps : ℕ} {u : Unit} :
    Returns st (freePage ps) s u s' ↔
      (s.pages ps).refs = 0#32 ∧ (s.pages ps).nextFree = none ∧ s' = s.pushFree ps := by
  simp only [freePage, returns_bind, returns_read, returns_ite, returns_errorLoop, and_false, false_or,
    returns_modify, not_or, not_not]
  constructor
  · rintro ⟨_, _, ⟨rfl, rfl⟩, ⟨hr, hn⟩, rfl⟩
    exact ⟨hr, hn, rfl⟩
  · rintro ⟨hr, hn, rfl⟩
    exact ⟨_, _, ⟨rfl, rfl⟩, ⟨hr, hn⟩, rfl⟩

theorem returns_pageDecref {ps : ℕ} {u : Unit} :
    Returns st (pageDecref ps) s u s' ↔
      ((s.pages ps).refs = 1#32 ∧ (s.pages ps).nextFree = none ∧ s' = (s.setRefs ps 0#32).pushFree ps) ∨
        ((s.pages ps).refs ≠ 1#32 ∧ s' = s.setRefs ps ((s.pages ps).refs - 1#32)) := by
  have hz : (s.pages ps).refs - 1#32 = 0#32 ↔ (s.pages ps).refs = 1#32 := by
    constructor
    · intro h
      rw [← BitVec.sub_add_cancel (s.pages ps).refs 1#32, h]
      rfl
    · intro h
      rw [h]
      rfl
  simp only [pageDecref, returns_bind, returns_modify, returns_read, returns_ite, returns_freePage]
  constructor
  · rintro ⟨_, _, rfl, _, _, ⟨rfl, rfl⟩, h⟩
    simp only [KState.setPages_pages, Function.update_self, hz] at h
    rcases h with ⟨h₁, _, hn, rfl⟩ | ⟨h₁, h⟩
    · refine Or.inl ⟨h₁, hn, ?_⟩
      rw [h₁]
      rfl
    · exact Or.inr ⟨h₁, (returns_pure.mp h).2⟩
  · rintro (⟨h₁, hn, rfl⟩ | ⟨h₁, rfl⟩)
    · refine ⟨(), _, rfl, _, _, ⟨rfl, rfl⟩, Or.inl ?_⟩
      simp only [KState.setPages_pages, Function.update_self, hz]
      refine ⟨h₁, h₁, hn, ?_⟩
      rw [h₁]
      rfl
    · refine ⟨(), _, rfl, _, _, ⟨rfl, rfl⟩, Or.inr ?_⟩
      simp only [KState.setPages_pages, Function.update_self, hz]
      exact ⟨h₁, returns_pure.mpr ⟨rfl, rfl⟩⟩

theorem loops_freePage {q : ℕ} {msg : String} : Loops (freePage q) s msg s' ↔
    ((s.pages q).refs ≠ 0#32 ∨ (s.pages q).nextFree ≠ none) ∧ msg = "Page still in use\n" ∧ s' = s := by
  simp only [freePage, loops_bind, loops_read, false_or, returns_read, loops_ite, loops_errorLoop, loops_modify,
    and_false,
    or_false]
  constructor
  · rintro ⟨_, _, ⟨rfl, rfl⟩, h⟩
    exact h
  · intro h
    exact ⟨_, _, ⟨rfl, rfl⟩, h⟩

end Cezos
