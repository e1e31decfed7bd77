import Cezos.Kernel.MapRegion

namespace Cezos

open Lib

variable {st : Bool} {s s₀ s₁ s' : KState} {pgdir va w : Word} {kf q t i j v : ℕ} {L L₀ : List ℕ} {view : ℕ → Word}

theorem Prepared.stock (h : BootEntry s₀) (hf : Fits s₀) (hb : s₀.detectedBasemem ≤ 256) (hp : Prepared s₀ s₁) :
    Stock s₁ s₀.bootList (kernFrame s₀.pgdirAt) := by
  obtain ⟨h₁, h₂, h₃, h₄⟩ := fits_frames h hf
  have hle := basemem_le_count hb
  refine ⟨fun q hq => ?_, hp.list.nodup, fun hm => ?_⟩
  · rw [mem_bootList] at hq
    rw [hp.count]
    omega
  · rw [mem_bootList] at hm
    omega

theorem withPgdir_entry (s : KState) (i : ℕ) : s.withPgdir.mem (kernFrame s.pgdirAt) i =
    if i = 957 then paddr s.pgdirAt ||| pteU ||| pteP else 0#32 := by
  have h : pdx uVirtualPageTable = 957 := by decide
  rw [KState.withPgdir, KState.setMem_mem, h, KState.setKern_mem, KState.setMem_mem, Radix.setWord,
    Radix.setFrame_same]
  simp

theorem Prepared.mapping (hp : Prepared s₀ s₁) :
    Mapping s₁ s₀.bootList (kernFrame s₀.pgdirAt) (fun _ => 0#32) s₁ s₀.bootList := by
  have hzero : ∀ i ∈ regionDirs, s₁.mem (kernFrame s₀.pgdirAt) i = 0#32 := by
    intro i hi
    rw [hp.dir, withPgdir_entry, if_neg]
    rw [mem_regionDirs] at hi
    omega
  have hnone : ∀ i ∈ regionDirs, pteTarget (s₁.mem (kernFrame s₀.pgdirAt) i) = none := by
    intro i hi
    rw [hzero i hi, pteTarget_absent present_zero]
  refine ⟨.refl, hp.list, hp.free, fun q hq => (if_neg hq).symm, ⟨[], rfl, ?_⟩, ⟨?_, ?_⟩, fun i hi =>
    Or.inl (hzero i hi), fun _ _ => rfl, ?_⟩
  · rw [List.length_nil, eq_comm, Finset.card_eq_zero, Finset.filter_eq_empty_iff]
    intro i hi
    rw [hzero i hi]
    decide
  · intro d hd i hi _ _ _ _ t hc
    rw [Finset.mem_singleton] at hd
    rw [hd, Radix.child, hnone i hi] at hc
    cases hc
  · intro d hd i hi t hc
    rw [Finset.mem_singleton] at hd
    rw [hd, Radix.child, hnone i hi] at hc
    cases hc
  · exact fun v hv => kview_of_none (hnone _ hv)

def pagesEntry (base : Word) : ℕ → Word := regionEntry (paddr base) pteU
def stackEntry : ℕ → Word := regionEntry (paddr bootstack) pteU
def directEntry : ℕ → Word := regionEntry 0#32 pteW

/-- The entries after the three calls of `map_memory_region`: the pages array from page 978944 on, the stack from
page 983032 on, and the physical memory from page 983040 on. -/
def layout (base : Word) : ℕ → Word :=
  overlay (overlay (overlay (fun _ => 0#32) 978944 1024 (pagesEntry base)) 983032 1024 stackEntry) 983040 65535
    directEntry

theorem layout_direct {base : Word} (h : 983040 ≤ v) (h' : v < 1048575) :
    layout base v = directEntry (v - 983040) := by
  rw [layout, overlay, if_pos (by omega)]

theorem layout_pages {base : Word} (h : 978944 ≤ v) (h' : v < 979968) :
    layout base v = pagesEntry base (v - 978944) := by
  rw [layout, overlay, if_neg (by omega), overlay, if_neg (by omega), overlay, if_pos (by omega)]

theorem layout_stack {base : Word} (h : 983032 ≤ v) (h' : v < 983040) : layout base v = stackEntry (v - 983032) := by
  rw [layout, overlay, if_neg (by omega), overlay, if_pos (by omega)]

theorem layout_other {base : Word} (h : v < 978944 ∨ (979968 ≤ v ∧ v < 983032) ∨ 1048575 ≤ v) :
    layout base v = 0#32 := by
  rw [layout, overlay, if_neg (by omega), overlay, if_neg (by omega), overlay, if_neg (by omega)]

def InRegions (virt size : Word) : Prop :=
  pgnum virt + (size / pageSize).toNat ≤ 1048576 ∧
    ∀ k < (size / pageSize).toNat, (pgnum virt + k) / 1024 ∈ regionDirs

theorem inRegions_of {virt size : Word} {a n : ℕ} (ha : pgnum virt = a) (hn : (size / pageSize).toNat = n)
    (h : (978944 ≤ a ∧ a + n ≤ 979968) ∨ (982016 ≤ a ∧ a + n ≤ 1048576)) : InRegions virt size := by
  refine ⟨by omega, fun k hk => ?_⟩
  rw [mem_regionDirs]
  omega

theorem pages_inRegions : InRegions uPages pageTableSize :=
  inRegions_of (a := 978944) (n := 1024) (by decide) (by decide) (by decide)

theorem stack_inRegions : InRegions (kernelStackTop - kernelStackSize) pageTableSize :=
  inRegions_of (a := 983032) (n := 1024) (by decide) (by decide) (by decide)

theorem direct_inRegions : InRegions kernelBaseAddress remainingMem :=
  inRegions_of (a := 983040) (n := 65535) (by decide) (by decide) (by decide)

section Regions

variable (h : BootEntry s₀) (hf : Fits s₀) (hb : s₀.detectedBasemem ≤ 256) (hp : Prepared s₀ s₁)

include h hf hb hp

theorem mapRegions_mapping (hr : Returns true mapRegions s₁ () s) :
    ∃ L, Mapping s₁ s₀.bootList (kernFrame s₀.pgdirAt) (layout s₀.pagesAt) s L := by
  simp only [mapRegions, returns_bind, returns_read] at hr
  obtain ⟨_, _, ⟨rfl, rfl⟩, _, _, ⟨rfl, rfl⟩, _, t₁, h₁, _, t₂, h₂, h₃⟩ := hr
  rw [hp.kern] at h₁ h₂ h₃
  rw [hp.base] at h₁
  have hk := hp.stock h hf hb
  have ha := pgoff_pgdirAt h
  obtain ⟨L₁, hm₁⟩ := hp.mapping.mapMemoryRegion hk ha hp.loaded (by decide) pages_inRegions.1 pages_inRegions.2 h₁
  obtain ⟨L₂, hm₂⟩ := hm₁.mapMemoryRegion hk ha hp.loaded (by decide) stack_inRegions.1 stack_inRegions.2 h₂
  obtain ⟨L₃, hm₃⟩ := hm₂.mapMemoryRegion hk ha hp.loaded (by decide) direct_inRegions.1 direct_inRegions.2 h₃
  have hpages : pgnum uPages = 978944 ∧ (pageTableSize / pageSize).toNat = 1024 := by decide
  have hstack : pgnum (kernelStackTop - kernelStackSize) = 983032 := by decide
  have hkern : pgnum kernelBaseAddress = 983040 ∧ (remainingMem / pageSize).toNat = 65535 := by decide
  rw [hpages.1, hpages.2, hstack, hkern.1, hkern.2] at hm₃
  exact ⟨L₃, hm₃⟩

theorem mapRegions_exists (he : Enough s₀.bootList) : ∃ s, Returns true mapRegions s₁ () s := by
  have hk := hp.stock h hf hb
  have ha := pgoff_pgdirAt h
  obtain ⟨hf₁, hf₂, hf₃, _⟩ := fits_frames h hf
  have hlow : kernFrame s₀.pgdirAt < 1024 := by omega
  have himage : ∀ q ∈ s₀.bootList, s₁.inKernelImage q = false := by
    intro q hq
    rw [mem_bootList] at hq
    rw [KState.inKernelImage, hp.next, Bool.and_eq_false_iff, decide_eq_false_iff_not, decide_eq_false_iff_not]
    have : pgnum extPhysMem = 256 := by decide
    omega
  obtain ⟨t₁, h₁⟩ := hp.mapping.mapMemoryRegion_exists (paddr s₀.pagesAt) pteU hk ha hp.loaded
    (by decide) pages_inRegions.1 pages_inRegions.2 he hlow himage
  obtain ⟨L₁, hm₁⟩ := hp.mapping.mapMemoryRegion hk ha hp.loaded (by decide) pages_inRegions.1 pages_inRegions.2 h₁
  obtain ⟨t₂, h₂⟩ := hm₁.mapMemoryRegion_exists (paddr bootstack) pteU hk ha hp.loaded
    (by decide) stack_inRegions.1 stack_inRegions.2 he hlow himage
  obtain ⟨L₂, hm₂⟩ := hm₁.mapMemoryRegion hk ha hp.loaded (by decide) stack_inRegions.1 stack_inRegions.2 h₂
  obtain ⟨t₃, h₃⟩ := hm₂.mapMemoryRegion_exists 0#32 pteW hk ha hp.loaded
    (by decide) direct_inRegions.1 direct_inRegions.2 he hlow himage
  refine ⟨t₃, ?_⟩
  simp only [mapRegions, returns_bind, returns_read]
  refine ⟨_, _, ⟨rfl, rfl⟩, _, _, ⟨rfl, rfl⟩, (), t₁, ?_, (), t₂, ?_, ?_⟩
  · rw [hp.kern, hp.base]
    exact h₁
  · rw [hp.kern]
    exact h₂
  · rw [hp.kern]
    exact h₃

end Regions

namespace Mapping

theorem walk (h : Mapping s₁ L₀ kf view s L) (hk : Stock s₁ L₀ kf) (hv : pdx va ∈ regionDirs) :
    dirWalk s.mem kf va = if isPagePresent (view (pgnum va)) then
      some ⟨pteFrame (view (pgnum va)), isPageWritable (view (pgnum va)), isPageUser (view (pgnum va))⟩
        else none := by
  have hv' : pgnum va / 1024 ∈ regionDirs := by rwa [← pdx_of_pgnum]
  have hview := h.entries (pgnum va) hv'
  have hdiv := pdx_of_pgnum va
  rcases h.entry _ hv with h0 | ⟨t, ht, _, _, he⟩
  · have hn : pteTarget (s.mem kf (pgnum va / 1024)) = none := by
      rw [← hdiv, h0, pteTarget_absent present_zero]
    rw [kview_of_none hn] at hview
    rw [← hview, dirWalk, h0]
    rfl
  · have htl := (hk.pages t ht).2.2
    have hs : pteTarget (s.mem kf (pgnum va / 1024)) = some t := by
      rw [← hdiv, he, pteTarget_tableEntry htl]
    rw [kview_of_table hs, ← ptx_of_pgnum] at hview
    have hw : isPageWritable (page2pa t ||| tablePerm) = true := by
      rw [tableEntry_eq, writable_entry (pgoff_page2pa t)]
      decide
    have hu : isPageUser (page2pa t ||| tablePerm) = true := by
      rw [tableEntry_eq, user_entry (pgoff_page2pa t)]
      decide
    rw [dirWalk, he, pteFrame_tableEntry htl, hview, entryOf, present_tableEntry, hw, hu]
    simp

end Mapping

end Cezos
