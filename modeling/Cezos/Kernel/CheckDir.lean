import Cezos.Kernel.Layout

namespace Cezos

open Lib

variable {st : Bool} {s s₀ s₁ s' : KState} {pgdir va w : Word} {kf q t i j k v : ℕ} {L L₀ : List ℕ} {view : ℕ → Word}

def KState.checkValue (s : KState) (pgdir va : Word) : Word :=
  if isPagePresent (s.pdeAt pgdir va) = true ∧ isPagePresent (s.pteAt pgdir va) = true then
    pteAddr (s.pteAt pgdir va)
  else ~~~0#32

def KState.Checkable (s : KState) (pgdir va : Word) : Prop :=
  s.reaches (entryPtr pgdir (pdx va)) false = true ∧
    (isPagePresent (s.pdeAt pgdir va) = true → s.reaches (s.ptePtr pgdir va) false = true)

theorem checkValue_eq (hp : isPagePresent (s.pdeAt pgdir va) = true) : s.checkValue pgdir va =
    if isPagePresent (s.pteAt pgdir va) = true then pteAddr (s.pteAt pgdir va) else ~~~0#32 := by
  simp only [KState.checkValue, hp, true_and]

theorem checkValue_absent (hp : isPagePresent (s.pdeAt pgdir va) = false) : s.checkValue pgdir va = ~~~0#32 := by
  simp only [KState.checkValue, hp, Bool.false_eq_true, false_and, if_false]

theorem returns_checkVa2pa (ha : pgoff pgdir = 0) :
    Returns st (checkVa2pa pgdir va) s w s' ↔
      (st = true → s.Checkable pgdir va) ∧ w = s.checkValue pgdir va ∧ s' = s := by
  have hpure : ∀ {x y : Word} {t t' : KState}, Returns st (pure x : Kern Word) t y t' ↔ y = x ∧ t' = t :=
    returns_pure
  have hpde : ∀ a t, Returns st (load (entryPtr pgdir (pdx va))) s a t ↔
      (st = true → s.reaches (entryPtr pgdir (pdx va)) false = true) ∧ a = s.pdeAt pgdir va ∧ t = s := by
    intro a t
    rw [returns_load, KState.wordAt, kernFrame_entryPtr ha (pdx_lt va), kernIndex_entryPtr ha (pdx_lt va)]
    constructor
    · rintro ⟨h₁, h₂, h₃⟩
      exact ⟨h₃, h₁, h₂⟩
    · rintro ⟨h₃, h₁, h₂⟩
      exact ⟨h₁, h₂, h₃⟩
  have hkaddr : ∀ a t, Returns st (kaddr (pteAddr (s.pdeAt pgdir va))) s a t ↔
      True ∧ a = tableVa s.pagesCount (s.pdeAt pgdir va) ∧ t = s := by
    intro a t
    rw [returns_kaddr, true_and]
    rfl
  have hpte : ∀ a t, Returns st (load (entryPtr (tableVa s.pagesCount (s.pdeAt pgdir va)) (ptx va))) s a t ↔
      (st = true → s.reaches (s.ptePtr pgdir va) false = true) ∧ a = s.pteAt pgdir va ∧ t = s := by
    intro a t
    rw [returns_load]
    constructor
    · rintro ⟨h₁, h₂, h₃⟩
      exact ⟨h₃, h₁, h₂⟩
    · rintro ⟨h₃, h₁, h₂⟩
      exact ⟨h₁, h₂, h₃⟩
  rw [checkVa2pa, returns_bind_of hpde, returns_ite, KState.Checkable]
  cases hp : isPagePresent (s.pdeAt pgdir va) with
  | false =>
    rw [checkValue_absent hp]
    simp [hpure]
  | true =>
    rw [checkValue_eq hp, returns_bind_of hkaddr, returns_bind_of hpte, returns_ite]
    cases hq : isPagePresent (s.pteAt pgdir va) <;> simp [hpure, forall_and, and_assoc]

theorem returns_checkMapped (ha : pgoff pgdir = 0) {want : Word} {msg : String} :
    Returns st (checkMapped pgdir va want msg k) s () s' ↔ s' = s ∧
      (st = true → s.Checkable pgdir (va + BitVec.ofNat 32 k * pageSize)) ∧
      s.checkValue pgdir (va + BitVec.ofNat 32 k * pageSize) = want + BitVec.ofNat 32 k * pageSize := by
  simp only [checkMapped, returns_bind, returns_checkVa2pa ha, returns_ite, returns_errorLoop, and_false, false_or]
  constructor
  · rintro ⟨_, _, ⟨hc, rfl, rfl⟩, he, h⟩
    exact ⟨(returns_pure.mp h).2, hc, not_not.mp he⟩
  · rintro ⟨rfl, hc, he⟩
    exact ⟨_, s', ⟨hc, rfl, rfl⟩, not_not.mpr he, returns_pure.mpr ⟨rfl, rfl⟩⟩

def PdeReady (pde : Word) (i : ℕ) : Prop :=
  (i = 957 ∨ i = 959 ∨ i = 956 → isPagePresent pde = true) ∧
    (960 < i → isPagePresent pde = true ∧ isPageWritable pde = true)

theorem returns_checkPde (ha : pgoff pgdir = 0) (hi : i < 1024) :
    Returns st (checkPde pgdir i) s () s' ↔ s' = s ∧ (st = true → s.reaches (entryPtr pgdir i) false = true) ∧
      PdeReady (s.mem (kernFrame pgdir) i) i := by
  have h₁ : pdx uVirtualPageTable = 957 := by decide
  have h₂ : pdx (kernelStackTop - 1#32) = 959 := by decide
  have h₃ : pdx uPages = 956 := by decide
  have h₄ : pdx kernelBaseAddress = 960 := by decide
  simp only [checkPde, returns_bind, returns_load, returns_ite, returns_errorLoop, and_false, false_or,
    KState.wordAt,
    kernFrame_entryPtr ha hi, kernIndex_entryPtr ha hi, h₁, h₂, h₃, h₄, PdeReady]
  constructor
  · rintro ⟨_, s, ⟨rfl, rfl, hc⟩, hn₁, hn₂, h⟩
    refine ⟨(returns_pure.mp h).2, hc, fun hx => ?_, fun hx => ?_⟩
    · simpa using fun he => hn₁ ⟨hx, he⟩
    · simpa [not_or] using fun he => hn₂ ⟨hx, he⟩
  · rintro ⟨rfl, hc, hp₁, hp₂⟩
    refine ⟨_, s', ⟨rfl, rfl, hc⟩, ?_, ?_, returns_pure.mpr ⟨rfl, rfl⟩⟩
    · rintro ⟨hx, he⟩
      rw [hp₁ hx] at he
      cases he
    · rintro ⟨hx, he⟩
      rw [(hp₂ hx).1, (hp₂ hx).2] at he
      rcases he with he | he <;> cases he

def KState.Checked (s : KState) (st : Bool) (pgdir va want : Word) (n : ℕ) : Prop :=
  ∀ k < n, (st = true → s.Checkable pgdir (va + BitVec.ofNat 32 k * pageSize)) ∧
    s.checkValue pgdir (va + BitVec.ofNat 32 k * pageSize) = want + BitVec.ofNat 32 k * pageSize

theorem returns_checkLoop (ha : pgoff pgdir = 0) {want : Word} {msg : String} {n : ℕ} {u : Unit} :
    Returns st (Prog.forUp (checkMapped pgdir va want msg) 0 n) s u s' ↔ s' = s ∧ s.Checked st pgdir va want n := by
  rw [returns_forUp_test (fun k _ _ s₁ => returns_checkMapped ha)]
  simp only [KState.Checked, Nat.zero_le, Nat.zero_add, true_imp_iff]

theorem returns_checkKernPgdir (ha : pgoff pgdir = 0) :
    Returns st (checkKernPgdir pgdir) s () s' ↔ s' = s ∧
      s.Checked st pgdir uPages (paddr s.pagesBase) (pageSteps (pageAllignedRound (bytesOf s.pagesCount))) ∧
      s.Checked st pgdir kernelBaseAddress 0#32 (pageSteps (BitVec.ofNat 32 s.pagesCount * pageSize)) ∧
      s.Checked st pgdir (kernelStackTop - kernelStackSize) (paddr bootstack) (pageSteps kernelStackSize) ∧
      ∀ i < 1024, (st = true → s.reaches (entryPtr pgdir i) false = true) ∧
      PdeReady (s.mem (kernFrame pgdir) i) i := by
  have hpde : ∀ {s' : KState}, Returns st (Prog.forUp (checkPde pgdir) 0 numberPdentries) s () s' ↔ s' = s ∧
      ∀ i < 1024, (st = true → s.reaches (entryPtr pgdir i) false = true) ∧
      PdeReady (s.mem (kernFrame pgdir) i) i := by
    intro s'
    rw [returns_forUp_test (fun k _ hk s₁ => returns_checkPde ha (by simpa [numberPdentries] using hk))]
    simp only [Nat.zero_le, Nat.zero_add, true_imp_iff, numberPdentries]
  simp only [checkKernPgdir, returns_bind, returns_read, returns_checkLoop ha]
  constructor
  · rintro ⟨_, _, ⟨rfl, rfl⟩, _, _, ⟨rfl, rfl⟩, _, s, ⟨rfl, h₁⟩, _, s, ⟨rfl, h₂⟩, _, s, ⟨rfl, h₃⟩, h₄⟩
    obtain ⟨rfl, h₄⟩ := hpde.mp h₄
    exact ⟨rfl, h₁, h₂, h₃, h₄⟩
  · rintro ⟨rfl, h₁, h₂, h₃, h₄⟩
    exact ⟨_, s', ⟨rfl, rfl⟩, _, s', ⟨rfl, rfl⟩, (), s', ⟨rfl, h₁⟩, (), s', ⟨rfl, h₂⟩, (), s', ⟨rfl, h₃⟩,
      hpde.mpr ⟨rfl, h₄⟩⟩

namespace Mapping

theorem checkable (h : Mapping s₁ L₀ (kernFrame pgdir) view s L) (hk : Stock s₁ L₀ (kernFrame pgdir))
    (ha : pgoff pgdir = 0) (hc : s.cr3 = none) (hd : kernFrame pgdir < 1024) (hv : pdx va ∈ regionDirs) :
    s.Checkable pgdir va := by
  refine ⟨?_, fun hp => ?_⟩
  · rw [reaches_entry hc, decide_eq_true_eq, kernFrame_entryPtr ha (pdx_lt va)]
    exact hd
  · obtain ⟨t, _, hlt, _, hf, _⟩ := h.ptr hk hv hp
    rw [reaches_entry hc, decide_eq_true_eq, hf]
    exact hlt

theorem checkValue (h : Mapping s₁ L₀ (kernFrame pgdir) view s L) (hk : Stock s₁ L₀ (kernFrame pgdir))
    (hv : pdx va ∈ regionDirs) : s.checkValue pgdir va =
      if isPagePresent (view (pgnum va)) = true then pteAddr (view (pgnum va)) else ~~~0#32 := by
  have hview := h.entries (pgnum va) (by rwa [← pdx_of_pgnum])
  cases hp : isPagePresent (s.pdeAt pgdir va) with
  | false =>
    have hn : pteTarget (s.mem (kernFrame pgdir) (pgnum va / 1024)) = none := by
      rw [← pdx_of_pgnum]
      exact pteTarget_absent hp
    rw [checkValue_absent hp, ← hview, kview_of_none hn, present_zero]
    rfl
  | true =>
    obtain ⟨t, ht, _, _, hf, hi⟩ := h.ptr hk hv hp
    rw [kview_of_table (t := t) (by rw [← pdx_of_pgnum]; exact ht), ← ptx_of_pgnum] at hview
    rw [checkValue_eq hp, KState.pteAt, KState.wordAt, hf, hi, hview]

theorem dir_present (h : Mapping s₁ L₀ kf view s L) (hi : v / 1024 ∈ regionDirs)
    (hv : view v ≠ 0#32) : isPagePresent (s.mem kf (v / 1024)) = true ∧ isPageWritable (s.mem kf (v / 1024)) =
    true := by
  rcases h.entry _ hi with h0 | ⟨t, ht, _, _, he⟩
  · rw [← h.entries v hi, kview_of_none (by rw [h0, pteTarget_absent present_zero])] at hv
    exact absurd rfl hv
  · rw [he, tableEntry_eq, writable_entry (pgoff_page2pa t)]
    exact ⟨present_entry, by decide⟩

end Mapping

theorem pgoff_add_pages {a : Word} (ha : pgoff a = 0) (k : ℕ) : pgoff (a + BitVec.ofNat 32 k * pageSize) = 0 := by
  rw [pgoff_eq] at ha ⊢
  rw [BitVec.toNat_add, BitVec.toNat_mul]
  simp only [pageSize, BitVec.toNat_ofNat]
  omega

theorem present_regionEntry (phys perm : Word) (k : ℕ) : isPagePresent (regionEntry phys perm k) = true :=
    present_entry

theorem pteAddr_regionEntry {phys perm : Word} (ha : pgoff phys = 0) (hp : perm.toNat < 4096) (k : ℕ) :
    pteAddr (regionEntry phys perm k) = phys + BitVec.ofNat 32 k * pageSize :=
  pteAddr_entry (pgoff_add_pages ha k) hp

theorem regionEntry_ne_zero (phys perm : Word) (k : ℕ) : regionEntry phys perm k ≠ 0#32 := by
  intro h
  have hp := present_regionEntry phys perm k
  rw [h] at hp
  exact absurd hp (by decide)

theorem pgoff_pagesAt (h : BootEntry s₀) : pgoff s₀.pagesAt = 0 := by
  rw [pgoff_eq, toNat_pagesAt h]
  omega

theorem pageSteps_pages (h : BootEntry s₀) (hf : Fits s₀) :
    pageSteps (pageAllignedRound (bytesOf s₀.detectedCount)) = s₀.detectedCount * 8 / 4096 + 1 ∧
      s₀.detectedCount * 8 / 4096 + 1 ≤ 1024 := by
  have hi : 4027580416 < s₀.endBss.toNat := h.image
  have hle : s₀.frontierAt.toNat ≤ 4030726144 := hf
  have ht := toNat_frontierAt h
  have hp := toNat_pagesAt h
  have hb := toNat_bytesOf (detectedCount_lt s₀)
  have hc := (fits_frames h hf).2.2.2
  rw [pageSteps, toNat_pageAllignedRound (by omega), hb]
  split at ht <;> omega

theorem pageSteps_count (hc : s₀.detectedCount < 524288) :
    pageSteps (BitVec.ofNat 32 s₀.detectedCount * pageSize) = s₀.detectedCount := by
  rw [pageSteps, BitVec.toNat_mul]
  simp only [pageSize, BitVec.toNat_ofNat]
  omega

section Checks

variable (h : BootEntry s₀) (hf : Fits s₀) (hb : s₀.detectedBasemem ≤ 256) (hp : Prepared s₀ s₁)
  (hm : Mapping s₁ s₀.bootList (kernFrame s₀.pgdirAt) (layout s₀.pagesAt) s L)

include h hf hb hp hm

theorem checked_of_layout (v₀ : ℕ) {va want : Word} {n : ℕ} (ha : pgoff va = 0) (hv : pgnum va = v₀)
    (hr : ∀ k < n, (v₀ + k) / 1024 ∈ regionDirs ∧ v₀ + k < 1048576)
    (he : ∀ k < n, isPagePresent (layout s₀.pagesAt (v₀ + k)) = true ∧
      pteAddr (layout s₀.pagesAt (v₀ + k)) = want + BitVec.ofNat 32 k * pageSize) :
    s.Checked true s₀.pgdirAt va want n := by
  intro k hk
  have hpg : pgnum (va + BitVec.ofNat 32 k * pageSize) = v₀ + k := by
    rw [pgnum_offset ha (by rw [hv]; exact (hr k hk).2), hv]
  have hin : pdx (va + BitVec.ofNat 32 k * pageSize) ∈ regionDirs := by
    rw [pdx_of_pgnum, hpg]
    exact (hr k hk).1
  have hc : s.cr3 = none := hm.setup.loaded.trans hp.loaded
  have hfr := fits_frames h hf
  have hstock := hp.stock h hf hb
  refine ⟨fun _ => hm.checkable hstock (pgoff_pgdirAt h) hc (by omega) hin, ?_⟩
  rw [hm.checkValue hstock hin, hpg, if_pos (he k hk).1, (he k hk).2]

theorem returns_check_of_layout :
    Returns true (checkKernPgdir s₀.pgdirAt) s () s' ↔ s' = s ∧ s₀.detectedCount ≤ 65535 := by
  have hcount : s.pagesCount = s₀.detectedCount := hm.setup.count.trans hp.count
  have hbase : s.pagesBase = s₀.pagesAt := hm.setup.base.trans hp.base
  obtain ⟨hf₁, hf₂, hf₃, hlt⟩ := fits_frames h hf
  obtain ⟨hsteps, hbound⟩ := pageSteps_pages h hf
  have hstock := hp.stock h hf hb
  have hc : s.cr3 = none := hm.setup.loaded.trans hp.loaded
  rw [returns_checkKernPgdir (pgoff_pgdirAt h), hcount, hbase, hsteps, pageSteps_count hlt]
  refine and_congr_right fun _ => ⟨fun ⟨_, hdirect, _⟩ => ?_, fun hle => ⟨?_, ?_, ?_, ?_⟩⟩
  · by_contra hgt
    have hk := (hdirect 65535 (by omega)).2
    have hpg : pgnum (kernelBaseAddress + BitVec.ofNat 32 65535 * pageSize) = 1048575 := by decide
    have hin : pdx (kernelBaseAddress + BitVec.ofNat 32 65535 * pageSize) ∈ regionDirs := by
      rw [pdx_of_pgnum, hpg, mem_regionDirs]
      omega
    rw [hm.checkValue hstock hin, hpg, layout_other (by omega)] at hk
    exact absurd hk (by decide)
  · refine checked_of_layout h hf hb hp hm 978944 (by decide) (by decide)
      (fun k hk => ⟨by rw [mem_regionDirs]; omega, by omega⟩) (fun k hk => ?_)
    rw [layout_pages (by omega) (by omega), Nat.add_sub_cancel_left]
    exact ⟨present_regionEntry _ _ _, pteAddr_regionEntry (pgoff_paddr (pgoff_pagesAt h)) (by decide) k⟩
  · refine checked_of_layout h hf hb hp hm 983040 (by decide) (by decide)
      (fun k hk => ⟨by rw [mem_regionDirs]; omega, by omega⟩) (fun k hk => ?_)
    rw [layout_direct (by omega) (by omega), Nat.add_sub_cancel_left]
    exact ⟨present_regionEntry _ _ _, pteAddr_regionEntry (by decide) (by decide) k⟩
  · have hs : pageSteps kernelStackSize = 8 := by decide
    rw [hs]
    refine checked_of_layout h hf hb hp hm 983032 (by decide) (by decide)
      (fun k hk => ⟨by rw [mem_regionDirs]; omega, by omega⟩) (fun k hk => ?_)
    rw [layout_stack (by omega) (by omega), Nat.add_sub_cancel_left]
    exact ⟨present_regionEntry _ _ _, pteAddr_regionEntry (by decide) (by decide) k⟩
  · intro i hi
    refine ⟨fun _ => ?_, fun hx => ?_, fun hx => ?_⟩
    · rw [reaches_entry hc, decide_eq_true_eq, kernFrame_entryPtr (pgoff_pgdirAt h) hi]
      omega
    · rcases hx with rfl | rfl | rfl
      · rw [hm.other 957 (by rw [mem_regionDirs]; omega), hp.dir, withPgdir_entry, if_pos rfl]
        exact present_entry
      · have hd := hm.dir_present (v := 983032) (by rw [mem_regionDirs]; omega)
          (by rw [layout_stack (by omega) (by omega)]; exact regionEntry_ne_zero _ _ _)
        exact hd.1
      · have hd := hm.dir_present (v := 978944) (by rw [mem_regionDirs]; omega)
          (by rw [layout_pages (by omega) (by omega)]; exact regionEntry_ne_zero _ _ _)
        exact hd.1
    · have hd := hm.dir_present (v := i * 1024) (by rw [mem_regionDirs]; omega)
        (by rw [layout_direct (by omega) (by omega)]; exact regionEntry_ne_zero _ _ _)
      rwa [Nat.mul_div_cancel i (by omega)] at hd

end Checks

end Cezos
