import Cezos.Kernel.KernLayout
import Cezos.Kernel.PrintedSetup

namespace Cezos

open Lib

variable {crt : Crt} {st : Bool} {s s' s₀ s₁ t t' : KState} {pgdir va : Word} {kf q i : ℕ} {L L₀ : List ℕ}
  {view : ℕ → Word}

namespace Shown

theorem regions (ha : pgoff pgdir = 0) (hd : kernFrame pgdir ≠ crt.frame) (base : Word) :
    Coupled (Like crt.screen)
      (do
        Cezos.mapMemoryRegion pgdir uPages pageTableSize (paddr base) pteU
        Cezos.mapMemoryRegion pgdir (kernelStackTop - kernelStackSize) pageTableSize (paddr bootstack) pteU
        Cezos.mapMemoryRegion pgdir kernelBaseAddress remainingMem 0#32 pteW)
      (do
        Printed.mapMemoryRegion crt pgdir uPages pageTableSize (paddr base) pteU
        Printed.cprintf crt
        Printed.mapMemoryRegion crt pgdir (kernelStackTop - kernelStackSize) pageTableSize (paddr bootstack) pteU
        Printed.cprintf crt
        Printed.mapMemoryRegion crt pgdir kernelBaseAddress remainingMem 0#32 pteW
        Printed.cprintf crt) :=
  .bind (mapMemoryRegion ha hd _ _ _ _) fun _ => .before cprintf (.bind (mapMemoryRegion ha hd _ _ _ _) fun _ =>
    .before cprintf (.last cprintf (mapMemoryRegion ha hd _ _ _ _)))

variable (h : Like crt.screen s t) (ha : pgoff s.kernPageDirectory = 0)
  (hd : kernFrame s.kernPageDirectory ≠ crt.frame)

include h ha hd

theorem mapRegions (hr : Returns st Cezos.mapRegions s () s') :
    ∃ t', Returns st (Printed.mapRegions crt) t () t' ∧ Like crt.screen s' t' := by
  obtain ⟨_, _, hk, hr⟩ := returns_bind.mp hr
  obtain ⟨rfl, rfl⟩ := returns_read.mp hk
  obtain ⟨_, _, hb, hr⟩ := returns_bind.mp hr
  obtain ⟨rfl, rfl⟩ := returns_read.mp hb
  obtain ⟨t', ht, hl⟩ := (regions ha hd _).forward _ _ _ _ _ h hr
  obtain ⟨m, tl, c, rfl, _⟩ := h
  exact ⟨t', returns_bind.mpr ⟨_, _, returns_read.mpr ⟨rfl, rfl⟩,
    returns_bind.mpr ⟨_, _, returns_read.mpr ⟨rfl, rfl⟩, ht⟩⟩, hl⟩

theorem of_mapRegions (hr : Returns st (Printed.mapRegions crt) t () t') :
    ∃ s', Returns st Cezos.mapRegions s () s' ∧ Like crt.screen s' t' := by
  have hlike := h
  obtain ⟨m, tl, c, rfl, _⟩ := h
  obtain ⟨_, _, hk, hr⟩ := returns_bind.mp hr
  obtain ⟨rfl, rfl⟩ := returns_read.mp hk
  obtain ⟨_, _, hb, hr⟩ := returns_bind.mp hr
  obtain ⟨rfl, rfl⟩ := returns_read.mp hb
  obtain ⟨s', hs, hl⟩ := (regions ha hd s.pagesBase).backward _ _ _ _ _ hlike hr
  exact ⟨s', returns_bind.mpr ⟨_, _, returns_read.mpr ⟨rfl, rfl⟩,
    returns_bind.mpr ⟨_, _, returns_read.mpr ⟨rfl, rfl⟩, hs⟩⟩, hl⟩

end Shown

/-! ### The map under the lines -/

theorem Mapping.taken_table (h : Mapping s₁ L₀ kf view s L) (hk : Stock s₁ L₀ kf) (hi : i ∈ regionDirs)
    (ht : pteTarget (s.mem kf i) = some q) : q ∈ L₀.take 66 := by
  obtain ⟨hq, hn, _⟩ := h.table hk hi ht
  obtain ⟨T, hT, hle⟩ := h.taken_le
  rw [hT, List.mem_append] at hq
  rw [hT, List.take_append, List.take_of_length_le hle]
  exact List.mem_append_left _ (hq.resolve_right hn)

/-- Where the screen is not one of the tables, the lines leave the map as it is. -/
theorem Mapping.like (h : Mapping s₁ L₀ kf view s L) (hk : Stock s₁ L₀ kf) (hl : Like crt.screen s t)
    (hd : kf ≠ crt.frame) (hv : crt.frame ∉ L₀.take 66) : Mapping s₁ L₀ kf view t L := by
  have hkept : ∀ f, f ≠ crt.frame → t.mem f = s.mem f :=
    fun f hf => funext fun j => (hl.word (Crt.not_screen hf)).symm
  have hdir := hkept kf hd
  have htable : ∀ i ∈ regionDirs, ∀ q, pteTarget (s.mem kf i) = some q → t.mem q = s.mem q :=
    fun i hi q ht => hkept q fun he => hv (he ▸ h.taken_table hk hi ht)
  have hchild : ∀ d ∈ ({kf} : Finset ℕ), ∀ i,
      Radix.child pteTarget t.mem d i = Radix.child pteTarget s.mem d i := by
    intro d hd i
    rw [Finset.mem_singleton] at hd
    rw [Radix.child, Radix.child, hd, hdir]
  have hview : ∀ v, v / 1024 ∈ regionDirs → t.kview kf v = view v := by
    intro v hv
    rw [← h.entries v hv, KState.kview, KState.kview, hdir]
    cases ht : pteTarget (s.mem kf (v / 1024)) with
    | none => rfl
    | some q => exact congrFun (htable _ hv q ht) _
  have hapart : Radix.Apart pteTarget t.mem {kf} regionDirs := by
    refine ⟨fun d hd i hi d' hd' i' hi' q hq hq' => ?_, fun d hd i hi q hq => ?_⟩
    · rw [hchild d hd] at hq
      rw [hchild d' hd'] at hq'
      exact h.apart.unshared d hd i hi d' hd' i' hi' q hq hq'
    · rw [hchild d hd] at hq
      exact h.apart.not_dir d hd i hi q hq
  have hset : SameSetup s t := by
    obtain ⟨_, _, _, rfl, _⟩ := hl
    exact ⟨rfl, rfl, rfl, rfl, rfl, rfl, rfl⟩
  have hpages : t.pages = s.pages ∧ t.pageFreeList = s.pageFreeList := by
    obtain ⟨_, _, _, rfl, _⟩ := hl
    exact ⟨rfl, rfl⟩
  have hchain : t.FreeList L := by
    obtain ⟨_, _, _, rfl, _⟩ := hl
    exact h.chain
  refine ⟨h.setup.trans hset, hchain, ?_, ?_, ?_, hapart, ?_, ?_, hview⟩
  · rw [hpages.1]
    exact h.free
  · rw [hpages.1]
    exact h.refs
  · rw [hdir]
    exact h.taken
  · rw [hdir]
    exact h.entry
  · rw [hdir]
    exact h.other

theorem Built.like (h : Built s₀ s₁ s L) (hl : Like crt.screen s t) (hd : kernFrame s₀.pgdirAt ≠ crt.frame)
    (hv : crt.frame ∉ s₀.bootList.take 66) : Built s₀ s₁ t L :=
  ⟨h.entry, h.fits, h.basemem, h.count, h.prepared, h.mapping.like h.stock hl hd hv⟩

theorem Crt.dir_ne (crt : Crt) (h : BootEntry s₀) (hf : Fits s₀) : kernFrame s₀.pgdirAt ≠ crt.frame := by
  have := fits_frames h hf
  have := crt.frame_lt
  omega

/-- What is true before `check_kern_pgdir`: `s` is the state without the lines, `t` the one with them. -/
structure PrintedRegions (crt : Crt) (s₀ s₁ s t : KState) (L : List ℕ) : Prop where
  entry : BootEntry s₀
  fits : Fits s₀
  basemem : s₀.detectedBasemem ≤ 256
  prepared : Prepared s₀ s₁
  mapping : Mapping s₁ s₀.bootList (kernFrame s₀.pgdirAt) (layout s₀.pagesAt) s L
  like : Like crt.screen s t

theorem returns_printedBuild : Returns st (Printed.buildKernPgdir crt) s₀ () s ↔
    ∃ t₁ t₂ t₃, Returns st (Printed.setupPages crt) s₀ () t₁ ∧ Returns st (Printed.mapRegions crt) t₁ () t₂ ∧
      Returns st (checkKernPgdir t₂.kernPageDirectory) t₂ () t₃ ∧ s = t₃.printed crt := by
  simp only [Printed.buildKernPgdir, Printed.checkKernPgdir, Printed.cprintf, returns_bind, returns_read,
    returns_modify]
  constructor
  · rintro ⟨_, t₁, h₁, _, t₂, h₂, _, _, ⟨rfl, rfl⟩, _, t₃, h₃, rfl⟩
    exact ⟨t₁, _, t₃, h₁, h₂, h₃, rfl⟩
  · rintro ⟨t₁, t₂, t₃, h₁, h₂, h₃, rfl⟩
    exact ⟨(), t₁, h₁, (), t₂, h₂, _, t₂, ⟨rfl, rfl⟩, (), t₃, h₃, rfl⟩

theorem printedBuild_regions (h : BootEntry s₀) (hr : Returns true (Printed.buildKernPgdir crt) s₀ () s) :
    ∃ s₁ s₂ t L, PrintedRegions crt s₀ s₁ s₂ t L ∧
      Returns true (checkKernPgdir s₀.pgdirAt) t () t ∧ s = t.printed crt := by
  obtain ⟨t₁, t₂, t₃, h₁, h₂, h₃, rfl⟩ := returns_printedBuild.mp hr
  obtain ⟨s₁, hs₁, hl₁⟩ := Shown.setupPages.backward _ _ _ _ _ (Like.refl h.loaded) h₁
  have hf : Fits s₀ := ((returns_setupPages_split h).mp hs₁).1
  obtain ⟨u, hset, hprep⟩ := returns_setupPages h hf
  obtain ⟨hb, rfl⟩ := (hset s₁).mp hs₁
  have hp := hprep hb
  have hd := crt.dir_ne h hf
  rw [← hp.kern] at hd
  have ha : pgoff s₁.kernPageDirectory = 0 := by
    rw [hp.kern]
    exact pgoff_pgdirAt h
  obtain ⟨s₂, hs₂, hl₂⟩ := Shown.of_mapRegions hl₁ ha hd h₂
  obtain ⟨L, hm⟩ := mapRegions_mapping h hf hb hp hs₂
  have hkern : t₂.kernPageDirectory = s₀.pgdirAt := by
    obtain ⟨_, _, _, rfl, _⟩ := hl₂
    exact hm.setup.kern.trans hp.kern
  rw [hkern] at h₃
  obtain ⟨rfl, _⟩ := (returns_checkKernPgdir (pgoff_pgdirAt h)).mp h₃
  exact ⟨s₁, s₂, t₃, L, ⟨h, hf, hb, hp, hm, hl₂⟩, h₃, rfl⟩

namespace PrintedRegions

variable (h : PrintedRegions crt s₀ s₁ s t L)

include h

theorem stock : Stock s₁ s₀.bootList (kernFrame s₀.pgdirAt) := h.prepared.stock h.entry h.fits h.basemem

theorem built (hv : crt.frame ∉ s₀.bootList.take 66) (hc : s₀.detectedCount ≤ 65535) : Built s₀ s₁ t L :=
  ⟨h.entry, h.fits, h.basemem, hc, h.prepared,
    h.mapping.like h.stock h.like (crt.dir_ne h.entry h.fits) hv⟩

/-- The last page of the address space is mapped by the last word of its table, which is behind the screen. -/
theorem count_le (hr : Returns true (checkKernPgdir s₀.pgdirAt) t () t) : s₀.detectedCount ≤ 65535 := by
  have ha := pgoff_pgdirAt h.entry
  have hd := crt.dir_ne h.entry h.fits
  have hlt := (fits_frames h.entry h.fits).2.2.2
  have hcount : t.pagesCount = s₀.detectedCount := by
    obtain ⟨_, _, _, rfl, _⟩ := h.like
    exact h.mapping.setup.count.trans h.prepared.count
  obtain ⟨_, _, hdirect, _⟩ := (returns_checkKernPgdir ha).mp hr
  rw [hcount, pageSteps_count hlt] at hdirect
  by_contra hgt
  have hk := (hdirect 65535 (by omega)).2
  have hpg : pgnum (kernelBaseAddress + BitVec.ofNat 32 65535 * pageSize) = 1048575 := by decide
  have hin : pdx (kernelBaseAddress + BitVec.ofNat 32 65535 * pageSize) ∈ regionDirs := by
    rw [pdx_of_pgnum, hpg, mem_regionDirs]
    omega
  have hpde : t.pdeAt s₀.pgdirAt (kernelBaseAddress + BitVec.ofNat 32 65535 * pageSize) =
      s.pdeAt s₀.pgdirAt (kernelBaseAddress + BitVec.ofNat 32 65535 * pageSize) :=
    (h.like.word (Crt.not_screen hd)).symm
  have hptr : t.ptePtr s₀.pgdirAt (kernelBaseAddress + BitVec.ofNat 32 65535 * pageSize) =
      s.ptePtr s₀.pgdirAt (kernelBaseAddress + BitVec.ofNat 32 65535 * pageSize) := by
    rw [KState.ptePtr, KState.ptePtr, hpde, hcount, h.mapping.setup.count, h.prepared.count]
  have hpte : t.pteAt s₀.pgdirAt (kernelBaseAddress + BitVec.ofNat 32 65535 * pageSize) =
      s.pteAt s₀.pgdirAt (kernelBaseAddress + BitVec.ofNat 32 65535 * pageSize) := by
    have hx : ptx (kernelBaseAddress + BitVec.ofNat 32 65535 * pageSize) = 1023 := by decide
    have hidx : kernIndex (s.ptePtr s₀.pgdirAt (kernelBaseAddress + BitVec.ofNat 32 65535 * pageSize)) = 1023 := by
      rw [← hx]
      exact kernIndex_tablePtr _ _ _
    rw [KState.pteAt, KState.pteAt, hptr]
    refine (h.like.word fun hs => ?_).symm
    have hlast := hs.2
    rw [hidx] at hlast
    exact absurd hlast (by decide)
  have hvalue : t.checkValue s₀.pgdirAt (kernelBaseAddress + BitVec.ofNat 32 65535 * pageSize) =
      s.checkValue s₀.pgdirAt (kernelBaseAddress + BitVec.ofNat 32 65535 * pageSize) := by
    rw [KState.checkValue, KState.checkValue, hpde, hpte]
  rw [hvalue, h.mapping.checkValue h.stock hin, hpg, layout_other (by omega)] at hk
  exact absurd hk (by decide)

end PrintedRegions

/-- The boot with its lines reaches the load of `cr3` as well, in a state that differs on the screen. -/
theorem printedBuild_exists (h : BootEntry s₀) (hf : Fits s₀) (hb : s₀.detectedBasemem ≤ 256)
    (hc : s₀.detectedCount ≤ 65535) (he : Enough s₀.bootList) (hv : crt.frame ∉ s₀.bootList.take 66) :
    ∃ s₁ s t L, Built s₀ s₁ s L ∧ Returns true buildKernPgdir s₀ () s ∧ Like crt.screen s t ∧
      Returns true (Printed.buildKernPgdir crt) s₀ () t := by
  obtain ⟨s, hbuild⟩ := buildKernPgdir_exists h hf hb hc he
  obtain ⟨s₁, s₂, h₁, h₂, h₃⟩ := returns_buildKernPgdir.mp hbuild
  obtain ⟨u, hset, hprep⟩ := returns_setupPages h hf
  obtain ⟨_, rfl⟩ := (hset s₁).mp h₁
  have hp := hprep hb
  have ha : pgoff s₁.kernPageDirectory = 0 := by
    rw [hp.kern]
    exact pgoff_pgdirAt h
  have hd := crt.dir_ne h hf
  rw [← hp.kern] at hd
  obtain ⟨L, hm⟩ := mapRegions_mapping h hf hb hp h₂
  obtain ⟨t₁, ht₁, hl₁⟩ := Shown.setupPages.forward _ _ _ _ _ (Like.refl h.loaded) h₁
  obtain ⟨t₂, ht₂, hl₂⟩ := Shown.mapRegions hl₁ ha hd h₂
  have hregions : PrintedRegions crt s₀ s₁ s₂ t₂ L := ⟨h, hf, hb, hp, hm, hl₂⟩
  have hbuilt := hregions.built hv hc
  rw [hm.setup.kern, hp.kern] at h₃
  obtain ⟨rfl, _⟩ := (returns_check_of_layout h hf hb hp hm).mp h₃
  refine ⟨s₁, s, t₂.printed crt, L, ⟨h, hf, hb, hc, hp, hm⟩, hbuild, hl₂.printed,
    returns_printedBuild.mpr ⟨t₁, t₂, t₂, ht₁, ht₂, ?_, rfl⟩⟩
  rw [hbuilt.kern]
  exact (returns_check_of_layout h hf hb hp hbuilt.mapping).mpr ⟨rfl, hc⟩

theorem printedBuild_built (h : BootEntry s₀) (hv : crt.frame ∉ s₀.bootList.take 66)
    (hr : Returns true (Printed.buildKernPgdir crt) s₀ () s) : ∃ s₁ L, Built s₀ s₁ s L := by
  obtain ⟨s₁, s₂, t, L, hregions, hcheck, rfl⟩ := printedBuild_regions h hr
  have hm := hregions.mapping.like hregions.stock hregions.like.printed (crt.dir_ne h hregions.fits) hv
  exact ⟨s₁, L, h, hregions.fits, hregions.basemem, hregions.count_le hcheck, hregions.prepared, hm⟩

theorem kernelLayout_of_build (crt : Crt) (h : BootEntry s₀) (hv : crt.frame ∉ s₀.bootList.take 66)
    (hr : Returns true (Printed.buildKernPgdir crt) s₀ () s) (va : Word) : KernelLayout s va := by
  obtain ⟨s₁, L, hb⟩ := printedBuild_built h hv hr
  exact hb.layout va

theorem Crt.not_free (crt : Crt) (h : BootEntry s₀) (hf : Fits s₀) (hb : s₀.detectedBasemem ≤ crt.frame) (n : ℕ) :
    crt.frame ∉ s₀.bootList.take n := by
  intro hm
  have hfr := fits_frames h hf
  have hlt := crt.frame_lt
  have hmem := mem_bootList.mp (List.mem_of_mem_take hm)
  omega

/-- A colour card on which every line clears the screen. -/
def blankScreen : Crt where
  frame := 184
  probed := by decide
  text := fun _ _ => 0x07200720#32

theorem blankScreen_spared (n : ℕ) : blankScreen.frame ∉ smallMachine.bootList.take n := by
  obtain ⟨hf, hb, _⟩ := smallMachine_fits
  exact blankScreen.not_free smallMachine_entry hf (hb.trans_le (by decide)) n

theorem smallMachine_builds : ∃ s₁ s L, Built smallMachine s₁ s L ∧
    Returns true (Printed.buildKernPgdir blankScreen) smallMachine () s := by
  obtain ⟨hf, hb, hc⟩ := smallMachine_fits
  have hl := lowFree_ge smallMachine (by omega)
  obtain ⟨s₁, s, t, L, hbuilt, _, hlike, hr⟩ := printedBuild_exists smallMachine_entry hf (by omega) (by omega)
    (enough_of_lowFree smallMachine_entry hf (by omega)) (blankScreen_spared 66)
  exact ⟨s₁, t, L, hbuilt.like hlike (blankScreen.dir_ne smallMachine_entry hf) (blankScreen_spared 66), hr⟩

theorem kernelLayout_of_build_small : ∃ s, Returns true (Printed.buildKernPgdir blankScreen) smallMachine () s ∧
    KernelLayout s 0xF0005000#32 := by
  obtain ⟨_, s, _, _, hr⟩ := smallMachine_builds
  exact ⟨s, hr, kernelLayout_of_build blankScreen smallMachine_entry (blankScreen_spared 66) hr 0xF0005000#32⟩

structure DocumentedLayout (s : KState) (label va : Word) : Prop where
  kernel : kernelBaseAddress ≤ va →
    dirWalk s.mem (kernFrame s.kernPageDirectory) va = some ⟨pgnum (va - kernelBaseAddress), true, false⟩
  stack : kernelStackTop - kernelStackSize ≤ va → va < kernelStackTop →
    dirWalk s.mem (kernFrame s.kernPageDirectory) va =
      some ⟨pgnum (paddr label + (va - (kernelStackTop - kernelStackSize))), true, false⟩
  pages : uPages ≤ va → va < uPages + bytesOf s.pagesCount →
    dirWalk s.mem (kernFrame s.kernPageDirectory) va =
      some ⟨pgnum (paddr s.pagesBase + (va - uPages)), false, true⟩
  user : ¬ (uPages ≤ va ∧ va.toNat < uPages.toNat + (s.pagesCount * 8 + 4095) / 4096 * 4096) →
    pdx va ≠ pdx uVirtualPageTable →
      ∀ e, dirWalk s.mem (kernFrame s.kernPageDirectory) va = some e → e.user = false

/-- The last page behind `U_PAGES` lies beyond the array and is open to the user. -/
theorem not_documentedLayout : ¬ ∀ (crt : Crt) (s₀ s : KState) (label va : Word), BootEntry s₀ →
    Returns true (Printed.buildKernPgdir crt) s₀ () s → DocumentedLayout s label va := by
  intro hall
  obtain ⟨s₁, s, L, hbuilt, hr⟩ := smallMachine_builds
  have hdoc := (hall blankScreen smallMachine s 0#32 0xEF3FF000#32 smallMachine_entry hr).user
  have hcount : s.pagesCount = 1024 := hbuilt.count_eq.trans smallMachine_fits.2.2
  have hva : 978944 ≤ pgnum 0xEF3FF000#32 ∧ pgnum 0xEF3FF000#32 < 979968 := by decide
  have hwalk := hbuilt.walk_pages hva.1 hva.2
  rw [← hbuilt.kern] at hwalk
  rw [hcount] at hdoc
  exact absurd (hdoc (by decide) (by decide) _ hwalk) (by simp)

end Cezos
