import Cezos.Kernel.MapRegion
import Cezos.Kernel.MapCalls

namespace Cezos

open Lib

variable {st : Bool} {s s₁ s' s₀ : KState} {pgdir va virt phys perm p w : Word} {d i k n q t v₀ : ℕ}
    {L L₁ L₀ T : List ℕ}

/-! ### Directories with tables of their own -/

/-- Outside the window on the page tables no two entries of the directory share a table, and no free page is a table.
Tables and free pages are pages of the allocator other than the directory and other than the one whose kernel
address is
`NULL`. -/
structure ManagedDir (s : KState) (d : ℕ) (L : List ℕ) : Prop where
  chain : s.FreeList L
  free : ∀ q ∈ L, q < s.pagesCount ∧ q < 1048576 ∧ q ≠ d ∧ q ≠ 65536
  tables : ∀ i < 1024, i ≠ pdx uVirtualPageTable → ∀ t, pteTarget (s.mem d i) = some t →
    t < s.pagesCount ∧ t ≠ d ∧ t ≠ 65536 ∧ t ∉ L
  unshared : ∀ i < 1024, i ≠ pdx uVirtualPageTable → ∀ j < 1024, j ≠ pdx uVirtualPageTable → i ≠ j →
    ∀ t, pteTarget (s.mem d i) = some t → pteTarget (s.mem d j) ≠ some t

/-- While `entry_pgdir` is loaded the code reaches the directory, its tables and the free pages. -/
structure InEntryWindow (s : KState) (d : ℕ) (L : List ℕ) : Prop where
  loaded : s.cr3 = none
  dir : d < 1024
  free : ∀ q ∈ L, q < 1024 ∧ s.inKernelImage q = false
  tables : ∀ i < 1024, i ≠ pdx uVirtualPageTable → ∀ t, pteTarget (s.mem d i) = some t → t < 1024

/-- `get_page_table` with `create` has left the list `L₁` of `L`: it takes a page where entry `i` is absent. -/
def TakesTable (s s₁ : KState) (d i : ℕ) (L L₁ : List ℕ) : Prop :=
  (isPagePresent (s.mem d i) = true ∧ L₁ = L ∧ s₁.mem d = s.mem d) ∨
    (isPagePresent (s.mem d i) = false ∧ ∃ q, L = q :: L₁ ∧ pteTarget (s₁.mem d i) = some q ∧
      ∀ j, j ≠ i → s₁.mem d j = s.mem d j)

namespace ManagedDir

theorem unsharedAt (h : ManagedDir s d L) (hw : pdx va ≠ pdx uVirtualPageTable)
    (ht : pteTarget (s.mem d (pdx va)) = some t) : Unshared s.mem d va t := by
  intro j hj hjw hne
  rw [tableWords, Finset.mem_range] at hj
  exact h.unshared (pdx va) (pdx_lt va) hw j hj hjw (Ne.symm hne) t ht

theorem newTable (h : ManagedDir s (kernFrame pgdir) (q :: L)) :
    ManagedDir (s.newTable pgdir va q) (kernFrame pgdir) L := by
  obtain ⟨hlt, hq, hqd, hq0⟩ := h.free q List.mem_cons_self
  have hk : kernFrame (s.kva q) = q := kernFrame_kva hlt hq
  have hdir := KState.newTable_dir hk (Ne.symm hqd) va
  have hn := (List.nodup_cons.mp (Chain.nodup h.chain)).1
  refine ⟨h.chain.newTable, fun q' hq' => h.free q' (List.mem_cons_of_mem _ hq'), fun i hi hiw t ht => ?_,
    fun i hi hiw j hj hjw hij t ht ht' => ?_⟩
  · rw [hdir] at ht
    split at ht
    · rw [pteTarget_tableEntry hq] at ht
      cases ht
      exact ⟨hlt, hqd, hq0, hn⟩
    · obtain ⟨h₁, h₂, h₃, h₄⟩ := h.tables i hi hiw t ht
      exact ⟨h₁, h₂, h₃, fun hm => h₄ (List.mem_cons_of_mem _ hm)⟩
  · rw [hdir] at ht ht'
    split at ht
    · next hi' =>
      rw [if_neg (fun hj' : j = pdx va => hij (hi'.trans hj'.symm))] at ht'
      rw [pteTarget_tableEntry hq] at ht
      cases ht
      exact (h.tables j hj hjw q ht').2.2.2 List.mem_cons_self
    · split at ht'
      · rw [pteTarget_tableEntry hq] at ht'
        cases ht'
        exact (h.tables i hi hiw q ht).2.2.2 List.mem_cons_self
      · exact h.unshared i hi hiw j hj hjw hij t ht ht'

theorem setWord (h : ManagedDir s d L) (ht : t ≠ d) : ManagedDir (s.setWord t i w) d L := by
  have hdir : (s.setWord t i w).mem d = s.mem d := Radix.setWord_frame_ne _ _ (Ne.symm ht)
  refine ⟨h.chain, h.free, ?_, ?_⟩
  · rw [hdir]
    exact h.tables
  · rw [hdir]
    exact h.unshared

theorem atEntry (h : ManagedDir s (kernFrame pgdir) L) (hw : pdx va ≠ pdx uVirtualPageTable)
    (hp : isPagePresent (s.pdeAt pgdir va) = true) :
    AtEntry s pgdir va (s.ptePtr pgdir va) (pteFrame (s.pdeAt pgdir va)) ∧ s.ptePtr pgdir va ≠ 0#32 := by
  obtain ⟨hlt, hne, h0, _⟩ := h.tables (pdx va) (pdx_lt va) hw _ (pteTarget_present hp)
  have hat : AtEntry s pgdir va (s.ptePtr pgdir va) (pteFrame (s.pdeAt pgdir va)) :=
    ⟨pteTarget_present hp, hlt, hne, rfl⟩
  refine ⟨hat, fun hz => h0 ?_⟩
  have hf := hat.kernFrame
  rw [hz] at hf
  exact hf.symm.trans (by decide)

end ManagedDir

namespace InEntryWindow

theorem newTable (h : InEntryWindow s (kernFrame pgdir) (q :: L)) (hm : ManagedDir s (kernFrame pgdir) (q :: L)) :
    InEntryWindow (s.newTable pgdir va q) (kernFrame pgdir) L := by
  obtain ⟨hlt, hq, hqd, _⟩ := hm.free q List.mem_cons_self
  have hdir := KState.newTable_dir (kernFrame_kva hlt hq) (Ne.symm hqd) va
  refine ⟨h.loaded, h.dir, fun q' hq' => h.free q' (List.mem_cons_of_mem _ hq'), fun i hi hiw t ht => ?_⟩
  rw [hdir] at ht
  split at ht
  · rw [pteTarget_tableEntry hq] at ht
    cases ht
    exact (h.free q List.mem_cons_self).1
  · exact h.tables i hi hiw t ht

theorem setWord (h : InEntryWindow s d L) (ht : t ≠ d) : InEntryWindow (s.setWord t i w) d L := by
  have hdir : (s.setWord t i w).mem d = s.mem d := Radix.setWord_frame_ne _ _ (Ne.symm ht)
  refine ⟨h.loaded, h.dir, h.free, ?_⟩
  rw [hdir]
  exact h.tables

end InEntryWindow

theorem reaches_dir (hc : s.cr3 = none) (ha : pgoff pgdir = 0) (hd : kernFrame pgdir < 1024) (b : Bool) :
    s.reaches (entryPtr pgdir (pdx va)) b = true := by
  rwa [reaches_entry hc, decide_eq_true_eq, kernFrame_entryPtr ha (pdx_lt va)]

theorem newTable_local (h : ManagedDir s (kernFrame pgdir) (q :: L))
    (hp : isPagePresent (s.pdeAt pgdir va) = false) :
    LocalTo (kernFrame pgdir) va s.mem (s.newTable pgdir va q).mem := by
  obtain ⟨hlt, hq, hqd, _⟩ := h.free q List.mem_cons_self
  have hother : ∀ j ∈ tableWords, j ≠ pdx uVirtualPageTable → ∀ t, pteTarget (s.mem (kernFrame pgdir) j) = some t →
      t ≠ q ∧ t ≠ kernFrame pgdir := by
    intro j hj hjw t ht
    rw [tableWords, Finset.mem_range] at hj
    obtain ⟨_, hd, _, hn⟩ := h.tables j hj hjw t ht
    exact ⟨fun he => hn (he ▸ List.mem_cons_self), hd⟩
  rw [KState.newTable_mem (kernFrame_kva hlt hq)]
  exact .newTable hqd hp (pteFrame_tableEntry hq) (fun j hj hjw ht => (hother j hj hjw q ht).1 rfl)
    (fun j hj hjw ht => (hother j hj hjw _ ht).2 rfl)

theorem newTable_returns (ha : pgoff pgdir = 0) (h : ManagedDir s (kernFrame pgdir) (q :: L))
    (hst : st = true → InEntryWindow s (kernFrame pgdir) (q :: L)) (hp : isPagePresent (s.pdeAt pgdir va) = false) :
    Returns st (getPageTable pgdir va true) s ((s.newTable pgdir va q).ptePtr pgdir va) (s.newTable pgdir va q) := by
  obtain ⟨hlt, hq, _⟩ := h.free q List.mem_cons_self
  have hk : kernFrame (s.kva q) = q := kernFrame_kva hlt hq
  have hptr : (s.newTable pgdir va q).ptePtr pgdir va = tablePtr s.pagesCount (page2pa q ||| tablePerm) va := by
    rw [KState.ptePtr, KState.newTable_pdeAt]
    rfl
  refine (returns_getPageTable ha).mpr ⟨fun hs => reaches_dir (hst hs).loaded ha (hst hs).dir _,
    Or.inr ⟨hp, rfl, q, h.chain.1, hptr, rfl, fun hs => ?_⟩⟩
  -- the new table and the directory are written through `entry_pgdir`
  obtain ⟨hlow, himage⟩ := (hst hs).free q List.mem_cons_self
  have hc : (s.takeTable q).cr3 = none := (hst hs).loaded
  rw [hk]
  refine ⟨himage, ?_, reaches_dir hc ha (hst hs).dir _⟩
  rw [reaches_entry (hst hs).loaded, decide_eq_true_eq, hk]
  exact hlow

theorem getPageTable_managed (ha : pgoff pgdir = 0) (h : ManagedDir s (kernFrame pgdir) L)
    (hst : st = true → InEntryWindow s (kernFrame pgdir) L) (hw : pdx va ≠ pdx uVirtualPageTable)
    (hroom : isPagePresent (s.pdeAt pgdir va) = false → L ≠ []) :
    ∃ p s₁ L₁ t, Returns st (getPageTable pgdir va true) s p s₁ ∧ p ≠ 0#32 ∧ AtEntry s₁ pgdir va p t ∧
      ManagedDir s₁ (kernFrame pgdir) L₁ ∧ (st = true → InEntryWindow s₁ (kernFrame pgdir) L₁) ∧ SameSetup s s₁ ∧
      LocalTo (kernFrame pgdir) va s.mem s₁.mem ∧ TakesTable s s₁ (kernFrame pgdir) (pdx va) L L₁ := by
  cases hp : isPagePresent (s.pdeAt pgdir va) with
  | true =>
    obtain ⟨hat, h0⟩ := h.atEntry hw hp
    have hr : Returns st (getPageTable pgdir va true) s (s.ptePtr pgdir va) s :=
      (returns_getPageTable ha).mpr ⟨fun hs => reaches_dir (hst hs).loaded ha (hst hs).dir _, Or.inl ⟨hp, rfl, rfl⟩⟩
    exact ⟨_, s, L, _, hr, h0, hat, h, hst, .refl, .refl, Or.inl ⟨hp, rfl, rfl⟩⟩
  | false =>
    cases L with
    | nil => exact absurd rfl (hroom hp)
    | cons q L =>
      obtain ⟨hlt, hq, hqd, _⟩ := h.free q List.mem_cons_self
      have hdir := KState.newTable_dir (kernFrame_kva hlt hq) (Ne.symm hqd) va
      have hpres : isPagePresent ((s.newTable pgdir va q).pdeAt pgdir va) = true := by
        rw [KState.newTable_pdeAt]
        exact present_tableEntry q
      have h₁ : ManagedDir (s.newTable pgdir va q) (kernFrame pgdir) L := h.newTable
      obtain ⟨hat, h0⟩ := h₁.atEntry hw hpres
      refine ⟨_, _, L, _, newTable_returns ha h hst hp, h0, hat, h₁, fun hs => (hst hs).newTable h,
        ⟨rfl, rfl, rfl, rfl, rfl, rfl, rfl⟩, newTable_local h hp, Or.inr ⟨hp, q, rfl, ?_, fun j hj => ?_⟩⟩
      · rw [hdir, if_pos rfl, pteTarget_tableEntry hq]
      · rw [hdir, if_neg hj]

/-! ### One turn of the loop -/

theorem mapPage_managed (phys perm : Word) (ha : pgoff pgdir = 0) (h : ManagedDir s (kernFrame pgdir) L)
    (hst : st = true → InEntryWindow s (kernFrame pgdir) L) (hva : virt + BitVec.ofNat 32 k * pageSize = va)
    (hw : pdx va ≠ pdx uVirtualPageTable) (hroom : isPagePresent (s.pdeAt pgdir va) = false → L ≠ []) :
    ∃ s' L', Returns st (mapPage pgdir virt phys perm k) s () s' ∧ ManagedDir s' (kernFrame pgdir) L' ∧
      (st = true → InEntryWindow s' (kernFrame pgdir) L') ∧ SameSetup s s' ∧
      LocalTo (kernFrame pgdir) va s.mem s'.mem ∧ TakesTable s s' (kernFrame pgdir) (pdx va) L L' ∧
      ∃ t, pteTarget (s'.mem (kernFrame pgdir) (pdx va)) = some t ∧ s'.mem t (ptx va) = regionEntry phys perm k := by
  obtain ⟨p, s₁, L₁, t, hr, h0, hat, h₁, hst₁, hsetup, hloc, htakes⟩ := getPageTable_managed ha h hst hw hroom
  have hdir : (s₁.setWord t (ptx va) (regionEntry phys perm k)).mem (kernFrame pgdir) = s₁.mem (kernFrame pgdir) :=
    Radix.setWord_frame_ne _ _ (Ne.symm hat.not_dir)
  have hstore : Returns st (store p (regionEntry phys perm k)) s₁ ()
    (s₁.setWord t (ptx va) (regionEntry phys perm k)) := by
    refine returns_store.mpr ⟨by rw [hat.kernFrame, hat.kernIndex], fun hs => ?_⟩
    rw [reaches_entry (hst₁ hs).loaded, decide_eq_true_eq, hat.kernFrame]
    exact (hst₁ hs).tables (pdx va) (pdx_lt va) hw t hat.target
  refine ⟨_, L₁, returns_mapPage.mpr ⟨p, s₁, hva ▸ hr, h0, hstore⟩, h₁.setWord hat.not_dir,
    fun hs => (hst₁ hs).setWord hat.not_dir, hsetup.trans ⟨rfl, rfl, rfl, rfl, rfl, rfl, rfl⟩,
    hloc.trans (.setEntry hat.not_dir (h₁.unsharedAt hw hat.target)), ?_, t, ?_, ?_⟩
  · rw [TakesTable, hdir]
    exact htakes
  · rw [hdir]
    exact hat.target
  · exact Radix.setWord_same _ _

/-! ### The whole region -/

def missing (s : KState) (d v₀ n : ℕ) : Finset ℕ :=
  ((Finset.range n).image (fun k => (v₀ + k) / 1024)).filter (fun i => isPagePresent (s.mem d i) = false)

theorem missing_succ (s : KState) (d v₀ n : ℕ) : missing s d v₀ (n + 1) =
    if isPagePresent (s.mem d ((v₀ + n) / 1024)) = false then insert ((v₀ + n) / 1024) (missing s d v₀ n)
    else missing s d v₀ n := by
  rw [missing, Finset.range_add_one, Finset.image_insert, Finset.filter_insert, missing]

/-- The first `n` pages from `v₀` on are mapped to the pages from `phys` on, nothing else is mapped differently, and
one
page has left the free list for each directory entry that was absent. -/
structure MapsExactly (s : KState) (L : List ℕ) (d v₀ : ℕ) (phys perm : Word) (n : ℕ) (s' : KState) : Prop where
  mapped : ∀ va, ∀ k < n, pgnum va = v₀ + k →
    ∃ t, pteTarget (s'.mem d (pdx va)) = some t ∧ s'.mem t (ptx va) = regionEntry phys perm k
  others : ∀ va, ¬ (v₀ ≤ pgnum va ∧ pgnum va < v₀ + n) → pdx va ≠ pdx uVirtualPageTable →
    dirWalk s'.mem d va = dirWalk s.mem d va
  taken : ∃ T L', L = T ++ L' ∧ s'.FreeList L' ∧ T.length = (missing s d v₀ n).card ∧
    ∀ i ∈ missing s d v₀ n, ∃ t ∈ T, pteTarget (s'.mem d i) = some t

theorem mapped_transEntries {m : ℕ → ℕ → Word} (hw : isPagePresent w = true) :
    (∃ t, pteTarget (m d (pdx va)) = some t ∧ m t (ptx va) = w) ↔ ∃ pde, transEntries m d va = some (pde, w) := by
  constructor
  · rintro ⟨t, ht, rfl⟩
    obtain ⟨hp, rfl⟩ := pteTarget_some.mp ht
    exact ⟨m d (pdx va), if_pos ⟨hp, hw⟩⟩
  · rintro ⟨pde, h⟩
    rw [transEntries] at h
    split at h
    · next hp =>
      rw [Option.some.injEq, Prod.mk.injEq] at h
      exact ⟨_, pteTarget_present hp.1, h.2⟩
    · cases h

structure RegionInv (st : Bool) (s₀ : KState) (L₀ : List ℕ) (d v₀ : ℕ) (phys perm : Word) (k : ℕ) (s : KState) :
    Prop where
  maps : MapsExactly s₀ L₀ d v₀ phys perm k s
  dir : ∃ L, ManagedDir s d L ∧ (st = true → InEntryWindow s d L)
  kept : ∀ i, i ∉ missing s₀ d v₀ k → s.mem d i = s₀.mem d i

namespace RegionInv

theorem start (h : ManagedDir s d L) (hst : st = true → InEntryWindow s d L) :
    RegionInv st s L d v₀ phys perm 0 s := by
  have hnone : missing s d v₀ 0 = ∅ := by simp [missing]
  refine ⟨⟨by simp, fun _ _ _ => rfl, [], L, rfl, h.chain, by simp [hnone], by simp [hnone]⟩, ⟨L, h, hst⟩,
    fun _ _ => rfl⟩

theorem absent (h : RegionInv st s₀ L₀ d v₀ phys perm k s) (hp : isPagePresent (s.mem d i) = false) :
    i ∉ missing s₀ d v₀ k ∧ isPagePresent (s₀.mem d i) = false := by
  have hn : i ∉ missing s₀ d v₀ k := by
    intro hm
    obtain ⟨_, _, _, _, _, htab⟩ := h.maps.taken
    obtain ⟨t, _, ht⟩ := htab i hm
    rw [pteTarget_absent hp] at ht
    cases ht
  exact ⟨hn, by rw [← h.kept i hn]; exact hp⟩

theorem present (h : RegionInv st s₀ L₀ d v₀ phys perm k s) (hp : isPagePresent (s.mem d ((v₀ + k) / 1024)) = true) :
    missing s₀ d v₀ (k + 1) = missing s₀ d v₀ k := by
  rw [missing_succ]
  split
  · next h₀ =>
    apply Finset.insert_eq_of_mem
    by_contra hn
    rw [h.kept _ hn, h₀] at hp
    cases hp
  · rfl

theorem step (ha : pgoff pgdir = 0) (h : RegionInv st s₀ L₀ (kernFrame pgdir) v₀ phys perm k s)
    (hva : pgnum (virt + BitVec.ofNat 32 k * pageSize) = v₀ + k)
    (hw : ∀ j ≤ k, (v₀ + j) / 1024 ≠ pdx uVirtualPageTable)
    (hroom : (missing s₀ (kernFrame pgdir) v₀ (k + 1)).card ≤ L₀.length) :
    ∃ s', Returns st (mapPage pgdir virt phys perm k) s () s' ∧
      RegionInv st s₀ L₀ (kernFrame pgdir) v₀ phys perm (k + 1) s' := by
  obtain ⟨L, hm, hst⟩ := h.dir
  obtain ⟨T, L', rfl, hchain, hcard, htab⟩ := h.maps.taken
  obtain rfl : L' = L := Chain.unique hchain hm.chain
  set va := virt + BitVec.ofNat 32 k * pageSize with hvadef
  have hi : pdx va = (v₀ + k) / 1024 := by rw [pdx_of_pgnum, hva]
  have hnext : isPagePresent (s.mem (kernFrame pgdir) (pdx va)) = false →
      missing s₀ (kernFrame pgdir) v₀ (k + 1) = insert (pdx va) (missing s₀ (kernFrame pgdir) v₀ k) ∧
        (missing s₀ (kernFrame pgdir) v₀ (k + 1)).card = T.length + 1 := by
    intro hp
    obtain ⟨hn, h₀⟩ := h.absent hp
    rw [missing_succ, ← hi, if_pos h₀, Finset.card_insert_of_notMem hn, hcard]
    exact ⟨rfl, rfl⟩
  have hne : isPagePresent (s.pdeAt pgdir va) = false → L' ≠ [] := by
    rintro hp rfl
    rw [(hnext hp).2, List.append_nil] at hroom
    omega
  obtain ⟨s', L₁, hr, hm₁, hst₁, _, hloc, htakes, hentry⟩ :=
    mapPage_managed phys perm ha hm hst hvadef.symm (hi ▸ hw k (Nat.le_refl _)) hne
  have hentry' : ∀ j < k, ∀ va', pgnum va' = v₀ + j → pgnum va' ≠ pgnum va ∧ pdx va' ≠ pdx uVirtualPageTable := by
    intro j hj va' hva'
    rw [hva, hva', pdx_of_pgnum, hva']
    exact ⟨by omega, hw j (by omega)⟩
  refine ⟨s', hr, ⟨fun va' j hj hva' => ?_, fun va' hout hwin => ?_, ?_⟩, ⟨L₁, hm₁, hst₁⟩, fun i hni => ?_⟩
  · rcases Nat.lt_succ_iff_lt_or_eq.mp hj with hj | rfl
    · obtain ⟨hne', hwin⟩ := hentry' j hj va' hva'
      have hpres : isPagePresent (regionEntry phys perm j) = true := present_entry
      rw [mapped_transEntries hpres, (hloc va' hne' hwin).1, ← mapped_transEntries hpres]
      exact h.maps.mapped va' j hj hva'
    · rw [pdx_of_pgnum, ptx_of_pgnum, hva', ← hva, ← pdx_of_pgnum, ← ptx_of_pgnum]
      exact hentry
  · rw [(hloc va' (by omega) hwin).2]
    exact h.maps.others va' (by omega) hwin
  · rcases htakes with ⟨hp, rfl, hdir⟩ | ⟨hp, q, rfl, hq, hdir⟩
    · rw [h.present (hi ▸ hp), hdir]
      exact ⟨T, L₁, rfl, hm₁.chain, hcard, htab⟩
    · obtain ⟨hins, hlen⟩ := hnext hp
      refine ⟨T ++ [q], L₁, by simp, hm₁.chain, by rw [hlen, List.length_append, List.length_singleton], ?_⟩
      rw [hins]
      intro i him
      rcases Finset.mem_insert.mp him with rfl | him
      · exact ⟨q, by simp, hq⟩
      · obtain ⟨t, ht, he⟩ := htab i him
        have hne' : i ≠ pdx va := fun he' => (h.absent hp).1 (he' ▸ him)
        exact ⟨t, List.mem_append_left _ ht, by rw [hdir i hne']; exact he⟩
  · rcases htakes with ⟨hp, rfl, hdir⟩ | ⟨hp, q, rfl, hq, hdir⟩
    · rw [h.present (hi ▸ hp)] at hni
      rw [hdir]
      exact h.kept i hni
    · rw [(hnext hp).1, Finset.mem_insert, not_or] at hni
      rw [hdir i hni.1]
      exact h.kept i hni.2

end RegionInv

end Cezos
