import Cezos.Kernel.CheckDir

namespace Cezos

open Lib

variable {s s₀ s₁ : KState} {va : Word} {L : List ℕ}

/-- What is true when `initialize_memory` loads `cr3`. -/
structure Built (s₀ s₁ s : KState) (L : List ℕ) : Prop where
  entry : BootEntry s₀
  fits : Fits s₀
  basemem : s₀.detectedBasemem ≤ 256
  count : s₀.detectedCount ≤ 65535
  prepared : Prepared s₀ s₁
  mapping : Mapping s₁ s₀.bootList (kernFrame s₀.pgdirAt) (layout s₀.pagesAt) s L

theorem returns_buildKernPgdir {st : Bool} : Returns st buildKernPgdir s₀ () s ↔
    ∃ s₁ s₂, Returns st setupPages s₀ () s₁ ∧ Returns st mapRegions s₁ () s₂ ∧
      Returns st (checkKernPgdir s₂.kernPageDirectory) s₂ () s := by
  simp only [buildKernPgdir, returns_bind, returns_read]
  constructor
  · rintro ⟨_, s₁, h₁, _, s₂, h₂, _, s₂', ⟨rfl, rfl⟩, h₃⟩
    exact ⟨s₁, s₂', h₁, h₂, h₃⟩
  · rintro ⟨s₁, s₂, h₁, h₂, h₃⟩
    exact ⟨(), s₁, h₁, (), s₂, h₂, _, s₂, ⟨rfl, rfl⟩, h₃⟩

theorem buildKernPgdir_built (h : BootEntry s₀) (hr : Returns true buildKernPgdir s₀ () s) :
    ∃ s₁ L, Built s₀ s₁ s L := by
  obtain ⟨s₁, s₂, h₁, h₂, h₃⟩ := returns_buildKernPgdir.mp hr
  have hf : Fits s₀ := ((returns_setupPages_split h).mp h₁).1
  obtain ⟨t, hset, hprep⟩ := returns_setupPages h hf
  obtain ⟨hb, rfl⟩ := (hset s₁).mp h₁
  have hp := hprep hb
  obtain ⟨L, hm⟩ := mapRegions_mapping h hf hb hp h₂
  rw [hm.setup.kern, hp.kern] at h₃
  obtain ⟨rfl, hc⟩ := (returns_check_of_layout h hf hb hp hm).mp h₃
  exact ⟨_, L, h, hf, hb, hc, hp, hm⟩

theorem buildKernPgdir_exists (h : BootEntry s₀) (hf : Fits s₀) (hb : s₀.detectedBasemem ≤ 256)
    (hc : s₀.detectedCount ≤ 65535) (he : Enough s₀.bootList) : ∃ s, Returns true buildKernPgdir s₀ () s := by
  obtain ⟨s₁, hset, hprep⟩ := returns_setupPages h hf
  have hp := hprep hb
  obtain ⟨s₂, h₂⟩ := mapRegions_exists h hf hb hp he
  obtain ⟨L, hm⟩ := mapRegions_mapping h hf hb hp h₂
  refine ⟨s₂, returns_buildKernPgdir.mpr ⟨s₁, s₂, (hset s₁).mpr ⟨hb, rfl⟩, h₂, ?_⟩⟩
  rw [hm.setup.kern, hp.kern]
  exact (returns_check_of_layout h hf hb hp hm).mpr ⟨rfl, hc⟩

namespace Built

theorem kern (h : Built s₀ s₁ s L) : s.kernPageDirectory = s₀.pgdirAt := h.mapping.setup.kern.trans h.prepared.kern

theorem stock (h : Built s₀ s₁ s L) : Stock s₁ s₀.bootList (kernFrame s₀.pgdirAt) :=
  h.prepared.stock h.entry h.fits h.basemem

theorem count_eq (h : Built s₀ s₁ s L) : s.pagesCount = s₀.detectedCount :=
  h.mapping.setup.count.trans h.prepared.count

theorem base_eq (h : Built s₀ s₁ s L) : s.pagesBase = s₀.pagesAt := h.mapping.setup.base.trans h.prepared.base

theorem entry_other (h : Built s₀ s₁ s L) {i : ℕ} (hi : i ∉ regionDirs) : s.mem (kernFrame s₀.pgdirAt) i =
    if i = 957 then paddr s₀.pgdirAt ||| pteU ||| pteP else 0#32 := by
  rw [h.mapping.other i hi, h.prepared.dir, withPgdir_entry]

theorem walk (h : Built s₀ s₁ s L) (hv : pdx va ∈ regionDirs) : dirWalk s.mem (kernFrame s₀.pgdirAt) va =
    if isPagePresent (layout s₀.pagesAt (pgnum va)) then
      some ⟨pteFrame (layout s₀.pagesAt (pgnum va)), isPageWritable (layout s₀.pagesAt (pgnum va)),
        isPageUser (layout s₀.pagesAt (pgnum va))⟩ else none :=
  h.mapping.walk h.stock hv

theorem walk_none (h : Built s₀ s₁ s L) (hv : pdx va ∉ regionDirs) (hw : pdx va ≠ 957) :
    dirWalk s.mem (kernFrame s₀.pgdirAt) va = none := by
  rw [dirWalk, h.entry_other hv, if_neg hw]
  rfl

end Built

theorem regionEntry_fields (phys perm : Word) (ha : pgoff phys = 0) (hp : perm.toNat < 4096) (k : ℕ) :
    pteFrame (regionEntry phys perm k) = pgnum (phys + BitVec.ofNat 32 k * pageSize) ∧
      isPageWritable (regionEntry phys perm k) = isPageWritable perm ∧
      isPageUser (regionEntry phys perm k) = isPageUser perm := by
  have hk := pgoff_add_pages ha k
  exact ⟨pteFrame_entry hk hp, writable_entry hk, user_entry hk⟩

namespace Built

theorem walk_direct (h : Built s₀ s₁ s L) (hv : 983040 ≤ pgnum va) (hv' : pgnum va < 1048575) :
    dirWalk s.mem (kernFrame s₀.pgdirAt) va = some ⟨pgnum va - 983040, true, false⟩ := by
  have hin : pdx va ∈ regionDirs := by
    rw [pdx_of_pgnum, mem_regionDirs]
    omega
  obtain ⟨hf, hw, hu⟩ := regionEntry_fields 0#32 pteW (by decide) (by decide) (pgnum va - 983040)
  have hw' : isPageWritable pteW = true := by decide
  have hu' : isPageUser pteW = false := by decide
  rw [h.walk hin, layout_direct hv hv', directEntry, if_pos (present_regionEntry _ _ _), hf, hw, hu, hw', hu',
    pgnum_offset (by decide) (by rw [show pgnum 0#32 = 0 by decide]; omega), show pgnum 0#32 = 0 by decide,
    Nat.zero_add]

theorem walk_pages (h : Built s₀ s₁ s L) (hv : 978944 ≤ pgnum va) (hv' : pgnum va < 979968) :
    dirWalk s.mem (kernFrame s₀.pgdirAt) va =
      some ⟨pgnum (paddr s₀.pagesAt) + (pgnum va - 978944), false, true⟩ := by
  have hin : pdx va ∈ regionDirs := by
    rw [pdx_of_pgnum, mem_regionDirs]
    omega
  have hi : 4027580416 < s₀.endBss.toNat := h.entry.image
  have hwin : s₀.endBss.toNat < 4030726144 := h.entry.window
  have hbase := toNat_pagesAt h.entry
  have hpg : pgnum (paddr s₀.pagesAt) < 2048 := by
    rw [pgnum_eq, paddr, toNat_sub_base]
    omega
  have ha := pgoff_paddr (pgoff_pagesAt h.entry)
  obtain ⟨hf, hw, hu⟩ := regionEntry_fields (paddr s₀.pagesAt) pteU ha (by decide) (pgnum va - 978944)
  have hw' : isPageWritable pteU = false := by decide
  have hu' : isPageUser pteU = true := by decide
  rw [h.walk hin, layout_pages hv hv', pagesEntry, if_pos (present_regionEntry _ _ _), hf, hw, hu, hw', hu',
    pgnum_offset ha (by omega)]

theorem walk_rest (h : Built s₀ s₁ s L)
    (hv : pgnum va < 978944 ∨ (980992 ≤ pgnum va ∧ pgnum va < 983032) ∨ 1048575 ≤ pgnum va) :
    dirWalk s.mem (kernFrame s₀.pgdirAt) va = none := by
  have hlt := pgnum_lt va
  by_cases hin : pdx va ∈ regionDirs
  · rw [h.walk hin, layout_other (by omega), present_zero]
    rfl
  · apply h.walk_none hin
    rw [pdx_of_pgnum]
    omega

end Built

structure KernelLayout (s : KState) (va : Word) : Prop where
  kernel : kernelBaseAddress ≤ va → va < 0xFFFFF000#32 →
    dirWalk s.mem (kernFrame s.kernPageDirectory) va = some ⟨pgnum (va - kernelBaseAddress), true, false⟩
  pages : uPages ≤ va → va < uPages + pageTableSize →
    dirWalk s.mem (kernFrame s.kernPageDirectory) va =
      some ⟨pgnum (paddr s.pagesBase + (va - uPages)), false, true⟩
  user : ¬ (uPages ≤ va ∧ va < uPages + pageTableSize) → pdx va ≠ pdx uVirtualPageTable →
    ¬ (kernelStackTop - kernelStackSize ≤ va ∧ va < kernelStackTop) →
      ∀ e, dirWalk s.mem (kernFrame s.kernPageDirectory) va = some e → e.user = false

theorem Built.layout (h : Built s₀ s₁ s L) (va : Word) : KernelLayout s va := by
  have hva := va.isLt
  have hpg := pgnum_eq va
  refine ⟨fun h₁ h₂ => ?_, fun h₁ h₂ => ?_, fun h₁ h₂ h₃ e he => ?_⟩
  · have h₁ : 4026531840 ≤ va.toNat := h₁
    have h₂ : va.toNat < 4294963200 := h₂
    have hsub : pgnum (va - kernelBaseAddress) = pgnum va - 983040 := by
      rw [pgnum_eq, pgnum_eq, toNat_sub_base]
      omega
    rw [h.kern, h.walk_direct (by omega) (by omega), hsub]
  · have h₁ : 4009754624 ≤ va.toNat := h₁
    have h₂ : va.toNat < 4013948928 := h₂
    have hi : 4027580416 < s₀.endBss.toNat := h.entry.image
    have hwin : s₀.endBss.toNat < 4030726144 := h.entry.window
    have hbase := toNat_pagesAt h.entry
    have hsum : pgnum (paddr s₀.pagesAt + (va - uPages)) = pgnum (paddr s₀.pagesAt) + (pgnum va - 978944) := by
      have hsub : (va - uPages).toNat = va.toNat - 4009754624 := by
        rw [uPages_eq, BitVec.toNat_sub]
        simp only [BitVec.toNat_ofNat]
        omega
      rw [pgnum_eq, pgnum_eq, pgnum_eq, BitVec.toNat_add, hsub, paddr, toNat_sub_base]
      omega
    rw [h.kern, h.base_eq, h.walk_pages (by omega) (by omega), hsum]
  · have h₁ : ¬ (4009754624 ≤ va.toNat ∧ va.toNat < 4013948928) := h₁
    have h₃ : ¬ (4026499072 ≤ va.toNat ∧ va.toNat < 4026531840) := h₃
    have hw : pdx uVirtualPageTable = 957 := by decide
    rw [hw, pdx_of_pgnum] at h₂
    rw [h.kern] at he
    by_cases hd : 983040 ≤ pgnum va ∧ pgnum va < 1048575
    · rw [h.walk_direct hd.1 hd.2] at he
      rw [← Option.some.inj he]
    · rw [h.walk_rest (by omega)] at he
      cases he

def KState.lowFree (s : KState) : ℕ := s.bootList.countP (· < 1024)

theorem enough_of_lowFree (h : BootEntry s₀) (hf : Fits s₀) (hl : 66 ≤ s₀.lowFree) : Enough s₀.bootList := by
  have hbound : ∀ q ∈ s₀.bootList, q < 1048576 := by
    intro q hq
    have hb := detectedBasemem_lt s₀
    have hc := (fits_frames h hf).2.2.2
    rw [mem_bootList] at hq
    omega
  let I := initialList s₀.detectedBasemem (kernFrame s₀.frontierAt) s₀.detectedCount
  have hmem : ∀ q ∈ I, q < 1048576 := fun q hq => hbound q (mem_lowFirst.mpr hq)
  refine ⟨I.filter (fun a => !isHigh 1 a), I.filter (isHigh 1), rfl, fun q hq => ?_, ?_⟩
  · rw [List.mem_filter, Bool.not_eq_true'] at hq
    exact (isHigh_one (hmem q hq.1)).mp hq.2
  · rw [KState.lowFree, KState.bootList, lowFirst, List.countP_append] at hl
    have hhigh : (I.filter (isHigh 1)).countP (· < 1024) = 0 := by
      rw [List.countP_eq_zero]
      intro q hq
      rw [List.mem_filter] at hq
      have := isHigh_one (hmem q hq.1)
      simp only [decide_eq_true_eq]
      intro hlt
      rw [this.mpr hlt] at hq
      cases hq.2
    rw [hhigh, Nat.add_zero] at hl
    exact Nat.le_trans hl List.countP_le_length

theorem lowFree_ge (s₀ : KState) (hb : s₀.detectedBasemem ≤ 256) : s₀.detectedBasemem - 1 ≤ s₀.lowFree := by
  have hperm : s₀.bootList.Perm (initialList s₀.detectedBasemem (kernFrame s₀.frontierAt) s₀.detectedCount) := by
    have hsplit := List.filter_append_perm (fun a => !isHigh 1 a)
      (initialList s₀.detectedBasemem (kernFrame s₀.frontierAt) s₀.detectedCount)
    simpa [KState.bootList, lowFirst] using hsplit
  rw [KState.lowFree, hperm.countP_eq, initialList, List.countP_append, List.countP_reverse, List.countP_reverse]
  have hall : (List.range' 1 (s₀.detectedBasemem - 1)).countP (· < 1024) = s₀.detectedBasemem - 1 := by
    have hlen : (List.range' 1 (s₀.detectedBasemem - 1)).length = s₀.detectedBasemem - 1 := List.length_range'
    refine (List.countP_eq_length.mpr (fun q hq => ?_)).trans hlen
    rw [List.mem_range'_1] at hq
    simp only [decide_eq_true_eq]
    omega
  omega

/-- The NVRAM of a machine with 640 KB of base memory, `ext` KB behind the first megabyte and `ext16` times 64 KB
behind the first 16. -/
def nvramOf (ext ext16 : BitVec 16) : ℕ → BitVec 8
  | 21 => 0x80#8
  | 22 => 0x02#8
  | 23 => ext.setWidth 8
  | 24 => (ext >>> 8).setWidth 8
  | 52 => ext16.setWidth 8
  | 53 => (ext16 >>> 8).setWidth 8
  | _ => 0#8

def entryState (nvram : ℕ → BitVec 8) : KState where
  mem := fun _ _ => 0#32
  pages := fun _ => ⟨none, 0#32⟩
  pageFreeList := none
  pagesCount := 0
  pagesBasememCount := 0
  kernPageDirectory := 0#32
  pagesBase := 0#32
  bootNextFree := 0#32
  endBss := 0xF0110000#32
  nvram := nvram
  taskPgdir := fun _ => 0#32
  cr0 := 0x80000011#32
  cr3 := none
  tlb := .empty
  refill := fun _ _ => true
  clock := 0

theorem entryState_entry (nvram : ℕ → BitVec 8) : BootEntry (entryState nvram) where
  list := rfl
  next := rfl
  loaded := rfl
  image := (by decide : (kernelBaseAddress + extPhysMem).toNat < (0xF0110000#32).toNat)
  window := (by decide : (0xF0110000#32).toNat < (kernelBaseAddress + pageTableSize).toNat)

def smallMachine : KState := entryState (nvramOf 3072#16 0#16)

theorem smallMachine_fits : Fits smallMachine ∧ smallMachine.detectedBasemem = 160 ∧
    smallMachine.detectedCount = 1024 := by
  refine ⟨by decide +kernel, by decide +kernel, by decide +kernel⟩

theorem smallMachine_entry : BootEntry smallMachine := entryState_entry _

end Cezos
