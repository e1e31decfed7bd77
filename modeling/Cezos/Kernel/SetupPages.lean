import Cezos.Kernel.Relink

namespace Cezos

open Lib

variable {st : Bool} {s s' : KState}

/-! ### What the boot finds -/

theorem vramRead_lt (nvram : ℕ → BitVec 8) (reg : ℕ) : (vramRead nvram reg).toNat < 65536 := by
  have h₁ := (nvram reg).isLt
  have h₂ := (nvram (reg + 1)).isLt
  rw [vramRead, mcRead, mcRead, BitVec.toNat_or]
  apply Nat.or_lt_two_pow (n := 16)
  · rw [BitVec.toNat_setWidth]
    omega
  · rw [BitVec.toNat_shiftLeft, BitVec.toNat_setWidth, Nat.shiftLeft_eq]
    omega

namespace KState

def detectedCount (s : KState) : ℕ := ((detectMemory s.nvram).1 / (pageSize / 1024#32)).toNat

def detectedBasemem (s : KState) : ℕ := ((detectMemory s.nvram).2 / (pageSize / 1024#32)).toNat

def pgdirAt (s : KState) : Word := pageAllignedRound s.endBss

def pagesAt (s : KState) : Word := pageAllignedRound (s.pgdirAt + pageSize)

def frontierAt (s : KState) : Word :=
  if bytesOf s.detectedCount = 0#32 then s.pagesAt else pageAllignedRound (s.pagesAt + bytesOf s.detectedCount)

end KState

/-- The state in which `initialize_memory` is called: nothing is allocated yet, the kernel runs on
`entry_pgdir`, and its image ends somewhere in the boot window. -/
structure BootEntry (s : KState) : Prop where
  list : s.pageFreeList = none
  next : s.bootNextFree = 0#32
  loaded : s.cr3 = none
  image : (kernelBaseAddress + extPhysMem).toNat < s.endBss.toNat
  window : s.endBss.toNat < (kernelBaseAddress + pageTableSize).toNat

def Fits (s : KState) : Prop := s.frontierAt ≤ kernelBaseAddress + pageTableSize

instance (s : KState) : Decidable (Fits s) := inferInstanceAs (Decidable (_ ≤ _))

theorem detectedBasemem_eq (s : KState) : s.detectedBasemem = (vramRead s.nvram nvramBaselo).toNat / 4 := by
  have hk : (pageSize / 1024#32).toNat = 4 := by decide
  have hb : (detectMemory s.nvram).2 = vramRead s.nvram nvramBaselo := by
    rw [detectMemory]
    split
    · rfl
    · split <;> rfl
  rw [KState.detectedBasemem, BitVec.toNat_udiv, hk, hb]

theorem detectedCount_eq (s : KState) : s.detectedCount =
    if (vramRead s.nvram nvramExt16lo).toNat ≠ 0 then (16384 + (vramRead s.nvram nvramExt16lo).toNat * 64) / 4
    else if (vramRead s.nvram nvramExtlo).toNat ≠ 0 then (1024 + (vramRead s.nvram nvramExtlo).toNat) / 4
    else (vramRead s.nvram nvramBaselo).toNat / 4 := by
  have h₂ := vramRead_lt s.nvram nvramExtlo
  have h₃ := vramRead_lt s.nvram nvramExt16lo
  have hk : (pageSize / 1024#32).toNat = 4 := by decide
  have hm : (vramRead s.nvram nvramExt16lo * 64#32).toNat = (vramRead s.nvram nvramExt16lo).toNat * 64 := by
    rw [BitVec.toNat_mul]
    simp only [BitVec.toNat_ofNat]
    omega
  have hz : ∀ w : Word, w ≠ 0#32 ↔ w.toNat ≠ 0 := fun w => not_congr (BitVec.toNat_inj (y := 0#32)).symm
  simp only [KState.detectedCount, detectMemory, BitVec.toNat_udiv, hk, hz, hm]
  by_cases h16 : (vramRead s.nvram nvramExt16lo).toNat = 0
  · by_cases he : (vramRead s.nvram nvramExtlo).toNat = 0
    · simp [h16, he]
    · have ha : (1#32 * 1024#32 + vramRead s.nvram nvramExtlo).toNat = 1024 +
        (vramRead s.nvram nvramExtlo).toNat := by
        rw [BitVec.toNat_add]
        simp only [BitVec.toNat_mul, BitVec.toNat_ofNat]
        omega
      simp only [h16, he, ha, ne_eq, not_true_eq_false, not_false_eq_true, if_true, if_false, Nat.zero_mul]
  · have ha : (16#32 * 1024#32 + vramRead s.nvram nvramExt16lo * 64#32).toNat =
        16384 + (vramRead s.nvram nvramExt16lo).toNat * 64 := by
      rw [BitVec.toNat_add, hm]
      simp only [BitVec.toNat_mul, BitVec.toNat_ofNat]
      omega
    have hn : (vramRead s.nvram nvramExt16lo).toNat * 64 ≠ 0 := by omega
    simp only [h16, hn, ha, ne_eq, not_false_eq_true, if_true]

theorem detectedCount_lt (s : KState) : s.detectedCount < 1052672 := by
  have h₁ := vramRead_lt s.nvram nvramBaselo
  have h₂ := vramRead_lt s.nvram nvramExtlo
  have h₃ := vramRead_lt s.nvram nvramExt16lo
  rw [detectedCount_eq]
  split
  · omega
  · split <;> omega

theorem detectedBasemem_lt (s : KState) : s.detectedBasemem < 16384 := by
  have h₁ := vramRead_lt s.nvram nvramBaselo
  rw [detectedBasemem_eq]
  omega

theorem basemem_le_count (h : s.detectedBasemem ≤ 256) : s.detectedBasemem ≤ s.detectedCount := by
  rw [detectedBasemem_eq] at h ⊢
  rw [detectedCount_eq]
  split
  · omega
  · split <;> omega

theorem toNat_bytesOf {n : ℕ} (h : n < 1052672) : (bytesOf n).toNat = n * 8 := by
  rw [bytesOf]
  simp only [BitVec.toNat_ofNat]
  omega

section Addresses

variable (h : BootEntry s)

include h

theorem toNat_pgdirAt : s.pgdirAt.toNat = (s.endBss.toNat / 4096 + 1) * 4096 := by
  have hw : s.endBss.toNat < 4030726144 := h.window
  exact toNat_pageAllignedRound (by omega)

theorem toNat_pagesAt : s.pagesAt.toNat = (s.endBss.toNat / 4096 + 3) * 4096 := by
  have hw : s.endBss.toNat < 4030726144 := h.window
  have hp := toNat_pgdirAt h
  have ha : (s.pgdirAt + pageSize).toNat = s.pgdirAt.toNat + 4096 := by
    rw [BitVec.toNat_add]
    simp only [pageSize, BitVec.toNat_ofNat]
    omega
  rw [KState.pagesAt, toNat_pageAllignedRound (by omega), ha]
  omega

theorem toNat_frontierAt : s.frontierAt.toNat =
    if s.detectedCount = 0 then s.pagesAt.toNat
    else (s.endBss.toNat / 4096 + 3 + (s.detectedCount * 8 / 4096 + 1)) * 4096 := by
  have hw : s.endBss.toNat < 4030726144 := h.window
  have hp := toNat_pagesAt h
  have hc := detectedCount_lt s
  have hb := toNat_bytesOf hc
  rw [KState.frontierAt]
  by_cases h0 : s.detectedCount = 0
  · rw [if_pos h0, if_pos]
    rw [h0]
    rfl
  · rw [if_neg h0, if_neg]
    · have ha : (s.pagesAt + bytesOf s.detectedCount).toNat = s.pagesAt.toNat + s.detectedCount * 8 := by
        rw [BitVec.toNat_add, hb]
        omega
      rw [toNat_pageAllignedRound (by omega), ha]
      omega
    · intro hz
      rw [hz] at hb
      simp only [BitVec.toNat_ofNat] at hb
      omega

theorem kernFrame_pgdirAt : kernFrame s.pgdirAt = s.endBss.toNat / 4096 + 1 - 983040 := by
  have hi : 4027580416 < s.endBss.toNat := h.image
  have hw : s.endBss.toNat < 4030726144 := h.window
  rw [kernFrame_eq, toNat_sub_base, toNat_pgdirAt h]
  omega

theorem pgoff_pgdirAt : pgoff s.pgdirAt = 0 := by
  rw [pgoff_eq, toNat_pgdirAt h]
  omega

theorem fits_frames (hf : Fits s) : 256 < kernFrame s.pgdirAt ∧ kernFrame s.pgdirAt + 2 ≤ kernFrame s.frontierAt ∧
    kernFrame s.frontierAt ≤ 1024 ∧ s.detectedCount < 524288 := by
  have hi : 4027580416 < s.endBss.toNat := h.image
  have hw : s.endBss.toNat < 4030726144 := h.window
  have hp := toNat_pagesAt h
  have ht := toNat_frontierAt h
  have hle : s.frontierAt.toNat ≤ 4030726144 := hf
  rw [kernFrame_pgdirAt h, kernFrame_eq, toNat_sub_base]
  split at ht <;> omega

end Addresses

namespace KState

@[simps -fullyApplied] def detected (s : KState) : KState :=
  { s with pagesBasememCount := s.detectedBasemem, pagesCount := s.detectedCount }

@[simps -fullyApplied] def setKern (s : KState) (pgdir : Word) : KState := { s with kernPageDirectory := pgdir }

@[simps -fullyApplied] def setBase (s : KState) (base : Word) : KState := { s with pagesBase := base }

def withPgdir (s : KState) : KState :=
  (((s.detected.setBootNext s.pagesAt).setFrame (kernFrame s.pgdirAt) (fun _ => 0#32)).setKern s.pgdirAt).setWord
    (kernFrame s.pgdirAt) (pdx uVirtualPageTable) (paddr s.pgdirAt ||| pteU ||| pteP)

abbrev emptyPgdir (s : KState) : KState :=
  (s.detected.setBootNext s.pagesAt).setFrame (kernFrame s.pgdirAt) (fun _ => 0#32)

abbrev withPages (s : KState) : KState := (s.withPgdir.setBootNext s.frontierAt).setBase s.pagesAt

def beforeInit (s : KState) : KState := clearPages ((s.withPgdir.setBootNext s.frontierAt).setBase s.pagesAt)

end KState

theorem returns_getMemorySize {u : Unit} : Returns st getMemorySize s u s' ↔ s' = s.detected := returns_modify

theorem returns_setKern {pgdir : Word} {u : Unit} :
    Returns st (Prog.modify (fun s => { s with kernPageDirectory := pgdir })) s u s' ↔ s' = s.setKern pgdir :=
  returns_modify

theorem returns_setBase {base : Word} {u : Unit} :
    Returns st (Prog.modify (fun s => { s with pagesBase := base })) s u s' ↔ s' = s.setBase base :=
  returns_modify

theorem returns_clearPages {u : Unit} : Returns st (Prog.modify clearPages) s u s' ↔ s' = clearPages s :=
  returns_modify

theorem returns_createKernPgdir {p : Word} :
    Returns st createKernPgdir s p s' ↔ p = s.bootFree ∧ s.bootFree ≠ 0#32 ∧
      ¬ kernelBaseAddress + pageTableSize < pageAllignedRound (s.bootFree + pageSize) ∧
      s' = (s.setBootNext (pageAllignedRound (s.bootFree + pageSize))).setFrame (kernFrame s.bootFree)
        (fun _ => 0#32) ∧
      (st = true → (s.setBootNext (pageAllignedRound (s.bootFree + pageSize))).reaches s.bootFree true = true) := by
  have hs : ¬ pageSize = 0#32 := by decide
  simp only [createKernPgdir, returns_bind, returns_bootAlloc, returns_ite, returns_errorLoop, and_false, false_or,
    returns_memset, if_neg hs]
  constructor
  · rintro ⟨_, _, ⟨rfl, hle, rfl⟩, hz, _, _, ⟨rfl, hc⟩, h⟩
    obtain ⟨rfl, rfl⟩ := returns_pure.mp h
    exact ⟨rfl, hz, hle hs, rfl, hc⟩
  · rintro ⟨rfl, hz, hle, rfl, hc⟩
    exact ⟨_, _, ⟨rfl, fun _ => hle, rfl⟩, hz, (), _, ⟨rfl, hc⟩, returns_pure.mpr ⟨rfl, rfl⟩⟩

theorem bootFree_eq (hn : s.bootNextFree ≠ 0#32) : s.bootFree = s.bootNextFree := by
  rw [KState.bootFree, if_neg hn]

theorem fits_iff (h : BootEntry s) : Fits s ↔
    ¬ kernelBaseAddress + pageTableSize < s.pagesAt ∧
      (bytesOf s.detectedCount ≠ 0#32 →
        ¬ kernelBaseAddress + pageTableSize < pageAllignedRound (s.pagesAt + bytesOf s.detectedCount)) := by
  have hp := toNat_pagesAt h
  have ht := toNat_frontierAt h
  rw [Fits, BitVec.not_lt, BitVec.le_def, BitVec.le_def]
  constructor
  · intro hf
    refine ⟨by split at ht <;> omega, fun hn => ?_⟩
    rw [KState.frontierAt, if_neg hn] at hf
    rw [BitVec.not_lt]
    exact hf
  · rintro ⟨h₁, h₂⟩
    by_cases hn : bytesOf s.detectedCount = 0#32
    · rw [KState.frontierAt, if_pos hn]
      exact h₁
    · rw [KState.frontierAt, if_neg hn]
      exact BitVec.le_def.mp (BitVec.not_lt.mp (h₂ hn))

/-! ### The steps of `setup_pages` -/

section Setup

variable (h : BootEntry s)

include h

theorem pgdirAt_ne_zero : s.pgdirAt ≠ 0#32 := by
  intro hz
  have hi : 4027580416 < s.endBss.toNat := h.image
  have hp := toNat_pgdirAt h
  rw [hz] at hp
  simp only [BitVec.toNat_ofNat] at hp
  omega

theorem pagesAt_ne_zero : s.pagesAt ≠ 0#32 := by
  intro hz
  have hi : 4027580416 < s.endBss.toNat := h.image
  have hp := toNat_pagesAt h
  rw [hz] at hp
  simp only [BitVec.toNat_ofNat] at hp
  omega

theorem frontierAt_ne_zero : s.frontierAt ≠ 0#32 := by
  intro hz
  have hi : 4027580416 < s.endBss.toNat := h.image
  have ht := toNat_frontierAt h
  rw [hz, toNat_pagesAt h] at ht
  simp only [BitVec.toNat_ofNat] at ht
  split at ht <;> omega

theorem setup_create (p : Word) (t : KState) : Returns st createKernPgdir s.detected p t ↔
    (¬ kernelBaseAddress + pageTableSize < s.pagesAt ∧ (st = true → kernFrame s.pgdirAt < 1024)) ∧
      p = s.pgdirAt ∧ t = s.emptyPgdir := by
  have hboot : s.detected.bootFree = s.pgdirAt := by
    rw [KState.bootFree, KState.detected_bootNextFree, h.next, if_pos rfl]
    rfl
  have hr : (s.detected.setBootNext s.pagesAt).reaches s.pgdirAt true = true ↔ kernFrame s.pgdirAt < 1024 := by
    rw [reaches_entry (s := s.detected.setBootNext s.pagesAt) h.loaded, decide_eq_true_eq]
  rw [returns_createKernPgdir, hboot]
  change _ ∧ _ ∧ ¬ _ < s.pagesAt ∧ t = s.emptyPgdir ∧ (_ → (s.detected.setBootNext s.pagesAt).reaches _ _ = true) ↔ _
  rw [hr]
  constructor
  · rintro ⟨h₁, _, h₂, h₃, h₄⟩
    exact ⟨⟨h₂, h₄⟩, h₁, h₃⟩
  · rintro ⟨⟨h₂, h₄⟩, h₁, h₃⟩
    exact ⟨h₁, pgdirAt_ne_zero h, h₂, h₃, h₄⟩

theorem setup_window (u : Unit) (t : KState) : Returns st (store (entryPtr s.pgdirAt (pdx uVirtualPageTable))
    (paddr s.pgdirAt ||| pteU ||| pteP)) (s.emptyPgdir.setKern s.pgdirAt) u t ↔
      (st = true → kernFrame s.pgdirAt < 1024) ∧ u = () ∧ t = s.withPgdir := by
  have hk := kernFrame_entryPtr (i := pdx uVirtualPageTable) (pgoff_pgdirAt h) (by decide)
  have hx := kernIndex_entryPtr (i := pdx uVirtualPageTable) (pgoff_pgdirAt h) (by decide)
  have hr : (s.emptyPgdir.setKern s.pgdirAt).reaches (entryPtr s.pgdirAt (pdx uVirtualPageTable)) true = true ↔
      kernFrame s.pgdirAt < 1024 := by
    rw [reaches_entry (s := s.emptyPgdir.setKern s.pgdirAt) h.loaded, decide_eq_true_eq, hk]
  rw [returns_store, hr, hk, hx]
  constructor
  · rintro ⟨h₁, h₂⟩
    exact ⟨h₂, rfl, h₁⟩
  · rintro ⟨h₂, _, h₁⟩
    exact ⟨h₁, h₂⟩

theorem setup_pages (p : Word) (t : KState) : Returns st (bootAlloc (bytesOf s.detectedCount)) s.withPgdir p t ↔
    (bytesOf s.detectedCount ≠ 0#32 →
      ¬ kernelBaseAddress + pageTableSize < pageAllignedRound (s.pagesAt + bytesOf s.detectedCount)) ∧
      p = s.pagesAt ∧ t = s.withPgdir.setBootNext s.frontierAt := by
  have hboot : s.withPgdir.bootFree = s.pagesAt := bootFree_eq (pagesAt_ne_zero h)
  rw [returns_bootAlloc, hboot]
  constructor
  · rintro ⟨h₁, h₂, h₃⟩
    exact ⟨h₂, h₁, h₃⟩
  · rintro ⟨h₂, h₁, h₃⟩
    exact ⟨h₁, h₂, h₃⟩

theorem setup_frontier (p : Word) (t : KState) : Returns st (bootAlloc 0#32) s.withPages p t ↔
    True ∧ p = s.frontierAt ∧ t = s.withPages := by
  have hboot : s.withPages.bootFree = s.frontierAt := bootFree_eq (frontierAt_ne_zero h)
  rw [returns_bootAlloc, hboot, if_pos rfl]
  constructor
  · rintro ⟨h₁, _, h₃⟩
    exact ⟨trivial, h₁, h₃⟩
  · rintro ⟨_, h₁, h₃⟩
    exact ⟨h₁, fun hz => absurd rfl hz, h₃⟩

theorem returns_setupPages_split : Returns st setupPages s () s' ↔
    Fits s ∧ ∃ s₁, Returns st initPages s.beforeInit () s₁ ∧ Returns st (checkPageList true) s₁ () s' := by
  have hfirst : ∀ u t, Returns st getMemorySize s u t ↔ True ∧ u = () ∧ t = s.detected := by
    intro u t
    rw [returns_getMemorySize]
    simp
  have hkern : ∀ u t, Returns st (Prog.modify (fun s' : KState => { s' with kernPageDirectory := s.pgdirAt }))
    s.emptyPgdir
      u t ↔ True ∧ u = () ∧ t = s.emptyPgdir.setKern s.pgdirAt := by
    intro u t
    rw [returns_setKern]
    simp
  have hcount : ∀ n t, Returns st (Prog.read (·.pagesCount)) s.withPgdir n t ↔
      True ∧ n = s.detectedCount ∧ t = s.withPgdir := by
    intro n t
    rw [returns_read, true_and]
    rfl
  have hbase : ∀ u t, Returns st (Prog.modify (fun s' : KState => { s' with pagesBase := s.pagesAt }))
      (s.withPgdir.setBootNext s.frontierAt) u t ↔ True ∧ u = () ∧ t = s.withPages := by
    intro u t
    rw [returns_setBase]
    simp
  have hclear : ∀ u t, Returns st (Prog.modify clearPages) s.withPages u t ↔ True ∧ u = () ∧ t = s.beforeInit := by
    intro u t
    rw [returns_clearPages]
    simp [KState.beforeInit]
  rw [setupPages, returns_bind_of hfirst, returns_bind_of (setup_create h), returns_bind_of hkern,
    returns_bind_of (setup_window h), returns_bind_of hcount, returns_bind_of (setup_pages h), returns_bind_of hbase,
    returns_bind_of (setup_frontier h), returns_bind_of hclear, returns_bind]
  constructor
  · rintro ⟨_, ⟨h₁, _⟩, _, _, _, h₂, _, _, _, _, s₁, hinit, hcheck⟩
    exact ⟨(fits_iff h).mpr ⟨h₁, h₂⟩, s₁, hinit, hcheck⟩
  · rintro ⟨hf, s₁, hinit, hcheck⟩
    obtain ⟨h₁, h₂⟩ := (fits_iff h).mp hf
    have hlt : kernFrame s.pgdirAt < 1024 := by
      have := fits_frames h hf
      omega
    exact ⟨trivial, ⟨h₁, fun _ => hlt⟩, trivial, fun _ => hlt, trivial, h₂, trivial, trivial, trivial, (), s₁, hinit,
      hcheck⟩

end Setup

/-! ### After `check_page_list` -/

def KState.bootList (s : KState) : List ℕ :=
  lowFirst (initialList s.detectedBasemem (kernFrame s.frontierAt) s.detectedCount)

theorem mem_bootList {q : ℕ} : q ∈ s.bootList ↔ (1 ≤ q ∧ q < s.detectedBasemem) ∨
    (1 ≤ q ∧ s.detectedBasemem ≤ q ∧ kernFrame s.frontierAt ≤ q ∧ q < s.detectedCount) := by
  rw [KState.bootList, mem_lowFirst, mem_initialList]

structure Prepared (s₀ s : KState) : Prop where
  count : s.pagesCount = s₀.detectedCount
  kern : s.kernPageDirectory = s₀.pgdirAt
  base : s.pagesBase = s₀.pagesAt
  next : s.bootNextFree = s₀.frontierAt
  loaded : s.cr3 = none
  refill : s.refill = s₀.refill
  list : s.FreeList s₀.bootList
  free : ∀ q ∈ s₀.bootList, (s.pages q).refs = 0#32
  used : ∀ q, InitUsed s₀.detectedBasemem (kernFrame s₀.frontierAt) q → (s.pages q).refs = 1#32
  dir : s.mem (kernFrame s₀.pgdirAt) = s₀.withPgdir.mem (kernFrame s₀.pgdirAt)

theorem lowPage_iff {q : ℕ} (h : q < 1048576) : pdx (page2pa q) < 1 ↔ q < 1024 := by
  rw [pdx_of_pgnum, pgnum_page2pa h]
  omega

theorem isHigh_one {q : ℕ} (h : q < 1048576) : isHigh 1 q = false ↔ q < 1024 := by
  rw [isHigh, decide_eq_false_iff_not, Nat.not_le, lowPage_iff h]

theorem poisonable_iff (h : BootEntry s) (hf : Fits s) {t : KState} (hc : t.pagesCount = s.detectedCount)
    (hn : t.bootNextFree = s.frontierAt) : (∀ q ∈ s.bootList, t.poisonable 1 q) ↔ s.detectedBasemem ≤ 256 := by
  obtain ⟨hk, hk', hu, hcount⟩ := fits_frames h hf
  have hbase := detectedBasemem_lt s
  have hkva : ∀ q, q < s.detectedCount → kernFrame (t.kva q) = q := fun q hq => kernFrame_kva (by omega) (by omega)
  have himage : ∀ f, t.inKernelImage f = true ↔ 256 ≤ f ∧ f < kernFrame s.frontierAt := by
    intro f
    rw [KState.inKernelImage, hn, Bool.and_eq_true, decide_eq_true_eq, decide_eq_true_eq]
    rfl
  constructor
  · intro hp
    by_contra hb
    have hm : 256 ∈ s.bootList := mem_bootList.mpr (Or.inl ⟨by omega, by omega⟩)
    obtain ⟨h₁, h₂⟩ := hp 256 hm ((lowPage_iff (by omega)).mpr (by omega))
    by_cases hlt : 256 < s.detectedCount
    · rw [hkva 256 hlt, Bool.eq_false_iff] at h₁
      exact h₁ ((himage 256).mpr ⟨Nat.le_refl _, by omega⟩)
    · have hz : t.kva 256 = 0#32 := by
        rw [KState.kva, if_pos]
        rw [hc, pgnum_page2pa (by omega)]
        omega
      rw [hz] at h₂
      exact absurd h₂ (by decide)
  · intro hb q hq hl
    have hle := basemem_le_count hb
    rw [mem_bootList] at hq
    have hlt := (lowPage_iff (by omega)).mp hl
    rw [hkva q (by omega), Bool.eq_false_iff]
    exact ⟨fun hi => by have := (himage q).mp hi; omega, hlt⟩

theorem returns_setupPages (h : BootEntry s) (hf : Fits s) :
    ∃ t, (∀ s', Returns true setupPages s () s' ↔ s.detectedBasemem ≤ 256 ∧ s' = t) ∧
      (s.detectedBasemem ≤ 256 → Prepared s t) := by
  obtain ⟨hk, hk', hu, hcount⟩ := fits_frames h hf
  have hbase := detectedBasemem_lt s
  obtain ⟨s₁, hinit, hsetup, hmem, hlist, hfree, hused⟩ := initPages_spec (s := s.beforeInit) h.list
    (frontierAt_ne_zero h)
  change s₁.FreeList (initialList s.detectedBasemem (kernFrame s.frontierAt) s.detectedCount) at hlist
  have hlen : (initialList s.detectedBasemem (kernFrame s.frontierAt) s.detectedCount).length < listFuel := by
    simp only [initialList, List.length_append, List.length_reverse, List.length_range', listFuel]
    omega
  obtain ⟨s₂, honly, hlist₂, hcheck⟩ := returns_checkPageList hlist hlen
  have hentry : s₁.cr3 = none := hsetup.loaded.trans h.loaded
  have hcount₂ : s₂.pagesCount = s.detectedCount := honly.setup.count.trans hsetup.count
  have hpoison := poisonable_iff h hf hcount₂ (honly.setup.next.trans hsetup.next)
  refine ⟨s₂.poisonAll 1 s.bootList, fun s' => ?_, fun hb => ?_⟩
  · rw [returns_setupPages_split h]
    constructor
    · rintro ⟨_, t, hi, hc⟩
      obtain ⟨_, rfl⟩ := hi.unique hinit
      obtain ⟨rfl, hp⟩ := (hcheck (fun _ => hentry)).mp hc
      exact ⟨hpoison.mp (hp rfl), rfl⟩
    · rintro ⟨hb, rfl⟩
      exact ⟨hf, s₁, hinit, (hcheck (fun _ => hentry)).mpr ⟨rfl, fun _ => hpoison.mpr hb⟩⟩
  · have hle := basemem_le_count hb
    have hp := poisonAll_only (s := s₂) 1 s.bootList
    have hall := (hsetup.trans honly.setup).trans hp.setup
    refine ⟨hall.count, hall.kern, hall.base, hall.next, hall.loaded.trans h.loaded, hall.refill, ?_, ?_, ?_, ?_⟩
    · rw [KState.FreeList, hp.list, hp.pages]
      exact hlist₂
    · intro q hq
      rw [hp.pages, honly.refs]
      exact hfree q (mem_lowFirst.mp hq)
    · intro q hq
      rw [hp.pages, honly.refs]
      exact hused q hq
    · rw [poisonAll_mem, honly.mem, hmem]
      · rfl
      · intro q hq _ he
        rw [mem_bootList] at hq
        have hkva : kernFrame (s₂.kva q) = q := kernFrame_kva (by omega) (by omega)
        rw [hkva] at he
        omega

end Cezos
