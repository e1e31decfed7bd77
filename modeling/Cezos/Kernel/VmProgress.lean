import Cezos.Kernel.VmPages

namespace Cezos

open Lib

variable {st : Bool} {s s₀ s₁ s' : KState} {x y : TaskSession} {D pool : Finset ℕ} {L L₁ : List ℕ} {c : VmCall}
  {cs : List VmCall} {d q ps kf gone : ℕ} {m₀ : ℕ → ℕ → Word} {pgdir va perms p : Word} {u : PageUse}

namespace KernWindow

theorem effect (h : KernWindow s kf gone pool) (he : Effect D pool d s s') (hd : d ∈ pool) :
    KernWindow s' kf gone pool := by
  apply h.congr _ he.loaded he.kern he.count he.image
  intro f hf
  by_cases hm : f ∈ D
  · exact he.others f hm (fun he => hf (he ▸ hd))
  · exact he.outside f hf hm

theorem reaches_pool (h : KernWindow s kf gone pool) (hq : q ∈ pool) (hg : q ≠ gone) (hp : kernFrame p = q)
    (write : Bool) :
    s.reaches p write = true := by
  subst hp
  exact h.reaches (h.pages _ hq).2.2.1 hg write

end KernWindow

theorem KState.FreeList.head_mem (hl : s.FreeList L) (hq : s.pageFreeList = some q) : q ∈ L := by
  rw [KState.FreeList, hq] at hl
  obtain ⟨L', rfl, _⟩ := Chain.some_iff.mp hl
  exact List.mem_cons_self

theorem returns_pageDecref_exists (hn : (s.pages q).nextFree = none) : ∃ s', Returns st (pageDecref q) s () s' := by
  by_cases hone : (s.pages q).refs = 1#32
  · exact ⟨_, returns_pageDecref.mpr (Or.inl ⟨hone, hn, rfl⟩)⟩
  · exact ⟨_, returns_pageDecref.mpr (Or.inr ⟨hone, rfl⟩)⟩

/-! ### Calls on one directory

The page that the window does not show is in the hands of a caller, so no call has to read or write it. -/

structure Reachable (s : KState) (D pool : Finset ℕ) (L : List ℕ) (kf gone d : ℕ) : Prop where
  balanced : Balanced s D pool L
  window : KernWindow s kf gone pool
  dir : d ∈ D ∧ d ∈ pool ∧ d ≠ gone
  not_free : gone ∉ L
  not_table : ¬ s.IsTable D gone

namespace Reachable

section OnDirectory

variable (h : Reachable s D pool L kf gone (kernFrame pgdir)) (ha : pgoff pgdir = 0) (hv : va < uTop)

include h

theorem small : ∀ q ∈ pool, q < 65535 := fun q hq => (h.window.pages q hq).2.2.1

theorem head (hl : s.pageFreeList = some q) : q ∈ pool ∧ q ≠ gone := by
  have hm := KState.FreeList.head_mem h.balanced.chain hl
  exact ⟨h.balanced.free_pool q hm, fun he => h.not_free (he ▸ hm)⟩

include ha

theorem reaches_pde (write : Bool) : s.reaches (entryPtr pgdir (pdx va)) write = true :=
  h.window.reaches_pool h.dir.2.1 h.dir.2.2 (kernFrame_entryPtr ha (pdx_lt va)) write

include hv

omit ha in
theorem reaches_pte (hp : isPagePresent (s.pdeAt pgdir va) = true) (write : Bool) :
    s.reaches (s.ptePtr pgdir va) write = true := by
  obtain ⟨ht, _, hf, _⟩ := h.balanced.table h.dir.1 hv hp
  have hpool := (h.balanced.table_used _ ht).1
  apply h.window.reaches_pool hpool _ hf
  intro he
  exact h.not_table (he ▸ ht)

theorem removePage (hp : isPagePresent (s.pdeAt pgdir va) = true) :
    ∃ s', Returns true (Cezos.removePage pgdir va) s () s' := by
  have hreach : s.reaches (entryPtr pgdir (pdx va)) false = true ∧
      (s.ptePtr pgdir va = 0#32 ∨ s.reaches (s.ptePtr pgdir va) false = true) :=
    ⟨h.reaches_pde ha false, Or.inr (h.reaches_pte hv hp false)⟩
  cases hm : s.mappedPage pgdir va with
  | none => exact ⟨s, (returns_removePage ha).mpr ⟨hp, fun _ => hreach, Or.inl ⟨hm, rfl⟩⟩⟩
  | some q =>
    have hwalk := (h.balanced.mappedPage_iff h.small h.dir.1 hv hp).mp hm
    obtain ⟨hpool, hl, _, _⟩ := h.balanced.leaf_used q (isMapped_of_walk h.dir.1 hv hwalk)
    have hoff : (s.pages q).nextFree = none := h.balanced.off_list q hpool hl
    obtain ⟨s₁, hdec⟩ :
      ∃ s₁, Returns true (pageDecref q)
      (s.setWord (kernFrame (s.ptePtr pgdir va)) (kernIndex (s.ptePtr pgdir va)) 0#32) () s₁ :=
      returns_pageDecref_exists hoff
    exact ⟨_, (returns_removePage ha).mpr ⟨hp, fun _ => hreach,
      Or.inr ⟨q, s₁, hm, fun _ => h.reaches_pte hv hp true, hdec, rfl⟩⟩⟩

theorem getPageTable (hp : isPagePresent (s.pdeAt pgdir va) = true ∨ s.pageFreeList ≠ none) :
    ∃ p s₁ L₁, Returns true (Cezos.getPageTable pgdir va true) s p s₁ ∧
    Reachable s₁ D pool L₁ kf gone (kernFrame pgdir) ∧
      isPagePresent (s₁.pdeAt pgdir va) = true ∧ p = s₁.ptePtr pgdir va := by
  have hget : ∃ p s₁, Returns true (Cezos.getPageTable pgdir va true) s p s₁ := by
    by_cases hpde : isPagePresent (s.pdeAt pgdir va) = true
    · exact ⟨_, _, (returns_getPageTable ha).mpr ⟨fun _ => h.reaches_pde ha false, Or.inl ⟨hpde, rfl, rfl⟩⟩⟩
    · obtain ⟨q, hl⟩ := Option.ne_none_iff_exists'.mp (hp.resolve_left hpde)
      obtain ⟨hq, hg⟩ := h.head hl
      have hk := h.window.kva hq
      have hwindow := (h.window.allocZero hq).setPages
        (Function.update
        (s.allocZero q).pages q { (s.allocZero q).pages q with refs := ((s.allocZero q).pages q).refs + 1#32 })
      refine ⟨_, _,
        (returns_getPageTable ha).mpr ⟨fun _ =>
        h.reaches_pde ha false, Or.inr ⟨Bool.not_eq_true _ ▸ hpde, rfl, q, hl, rfl,
        rfl, fun _ => ⟨?_, h.window.reaches_pool hq hg hk true, ?_⟩⟩⟩⟩
      · rw [hk]
        exact (h.window.pages q hq).2.2.2
      · exact hwindow.reaches_pool h.dir.2.1 h.dir.2.2 (kernFrame_entryPtr ha (pdx_lt va)) true
  obtain ⟨p, s₁, hr⟩ := hget
  obtain ⟨L₁, hgrow, _⟩ := getPageTable_changes h.balanced h.dir.1 ha hv hr
  obtain ⟨L₂, hready⟩ := getPageTable_balanced h.balanced h.dir.1 ha hv hr
  obtain rfl : L₂ = L₁ := Chain.unique hready.balanced.chain hgrow.list
  have hfate : ¬ (gone ∈ L₂ ∨ s₁.IsTable D gone) := by
    rw [hgrow.fate]
    simp [h.not_free, h.not_table]
  rw [not_or] at hfate
  exact ⟨p, s₁, L₂, hr, ⟨hready.balanced, h.window.effect hready.effect h.dir.2.1, h.dir, hfate.1, hfate.2⟩,
    hready.present,
    hready.ptr⟩

theorem inserts (hp : isPagePresent (s.pdeAt pgdir va) = true) (ps : ℕ) (perms : Word) :
    ∃ s', Inserts true pgdir ps va perms (s.ptePtr pgdir va) s s' := by
  have hreach : ∀ s₁, KernWindow s₁ kf gone pool → s₁.reaches (s.ptePtr pgdir va) true = true := by
    intro s₁ hw
    obtain ⟨ht, _, hf, _⟩ := h.balanced.table h.dir.1 hv hp
    apply hw.reaches_pool (h.balanced.table_used _ ht).1 _ hf
    intro he
    exact h.not_table (he ▸ ht)
  by_cases he : pteAddr (s.wordAt (s.ptePtr pgdir va)) = page2pa ps
  · by_cases hz : perms = 0#32
    · exact ⟨_, .rewritten he hz (fun _ => hreach _ (h.window.dropTlb va))⟩
    · exact ⟨_, .already he hz⟩
  · cases hn : isPagePresent (s.wordAt (s.ptePtr pgdir va)) with
    | false => exact ⟨_, .added he hn (fun _ => hreach _ (h.window.setPages _))⟩
    | true =>
      obtain ⟨s₁, hrem⟩ := h.removePage ha hv hp
      obtain ⟨_, hdone⟩ := removePage_balanced h.balanced h.dir.1 ha hv hrem
      have hw := h.window.effect hdone.effect h.dir.2.1
      exact ⟨_, .replaced he hn hrem (fun _ => hreach _ (hw.setPages _))⟩

theorem insertPage (hp : isPagePresent (s.pdeAt pgdir va) = true ∨ s.pageFreeList ≠ none) (ps : ℕ) (perms : Word) :
    ∃ s', Returns true (Cezos.insertPage pgdir ps va perms) s 0 s' := by
  obtain ⟨p, s₁, L₁, hget, h₁, hpres, rfl⟩ := h.getPageTable ha hv hp
  obtain ⟨s', hins⟩ := h₁.inserts ha hv hpres ps perms
  have hne := h₁.balanced.ptePtr_ne h₁.small h₁.dir.1 hv hpres
  exact ⟨s', returns_insertPage.mpr ⟨_, s₁, hget, Or.inr ⟨hne, rfl, fun _ => h₁.reaches_pte hv hpres false, hins⟩⟩⟩

end OnDirectory

end Reachable

namespace VmInv

variable (h : VmInv m₀ kf gone x pool L) (hg : x.UsedAs gone .held)

include h hg

theorem head (hl : x.s.pageFreeList = some q) : q ∈ pool ∧ q ≠ gone := by
  have hm := KState.FreeList.head_mem h.balanced.chain hl
  refine ⟨h.balanced.free_pool q hm, ?_⟩
  rintro rfl
  exact hg.used ((onFreeList_iff h.balanced.chain).mpr hm)

end VmInv

end Cezos
