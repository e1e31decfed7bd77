import Cezos.Kernel.Walk
import Cezos.Kernel.CallInv
import Mathlib.Logic.Relation

namespace Cezos

open Lib

variable {st : Bool} {s s' : KState} {va w : Word} {ps kf v : ℕ} {row : ℕ → Word} {perms : Word} {r : Int}

/-- The directory `row` in the frame `kf` is loaded: the window shows the directory itself, and no other two entries
have a table in common. -/
structure Loaded (row : ℕ → Word) (kf : ℕ) (s : KState) : Prop where
  loaded : s.cr3 = some kf
  kern : kernFrame s.kernPageDirectory = kf
  aligned : pgoff s.kernPageDirectory = 0
  dir : s.mem kf = row
  window : ∀ t, pteTarget (row (pdx uVirtualPageTable)) = some t → t = kf
  table : ∀ i < 1024, i ≠ pdx uVirtualPageTable → ∀ t, pteTarget (row i) = some t → t ≠ kf ∧ t < s.pagesCount
  apart : ∀ i < 1024, i ≠ pdx uVirtualPageTable → ∀ j < 1024, j ≠ pdx uVirtualPageTable → ∀ t,
    pteTarget (row i) = some t → pteTarget (row j) = some t → i = j

theorem coherent_setMem {X : ℕ → Prop} {mem : ℕ → ℕ → Word} (h : s.tlb.CoherentOff X (walkPage s.mem s.cr3))
    (hm : ∀ v, ¬ X v → walkPage s.mem s.cr3 v ≠ none → walkPage mem s.cr3 v = walkPage s.mem s.cr3 v) :
    (s.setMem mem).tlb.CoherentOff X (walkPage mem s.cr3) :=
  (h.change hm).fill

theorem coherent_dropTlb (h : s.tlb.CoherentOff (· = pgnum va) (walkPage s.mem s.cr3)) :
    (s.dropTlb va).TlbCoherent :=
  Tlb.Coherent.fill (h.drop (fun _ hv => hv))

theorem TlbCoherent.setMem {mem : ℕ → ℕ → Word} (h : s.TlbCoherent)
    (hm : ∀ v, walkPage s.mem s.cr3 v ≠ none → walkPage mem s.cr3 v = walkPage s.mem s.cr3 v) :
    (s.setMem mem).TlbCoherent :=
  (coherent_setMem (X := fun _ => False) h.off (fun v _ hv => hm v hv)).coherent (fun _ _ hv => hv.elim)

namespace Loaded

variable (h : Loaded row kf s) (hp : isPagePresent (row (pdx va)) = true) (hw : pdx va ≠ pdx uVirtualPageTable)

include h

theorem pdeAt : s.pdeAt s.kernPageDirectory va = row (pdx va) := by
  rw [KState.pdeAt, h.kern, h.dir]

include hp hw

theorem ptr : kernFrame (s.ptePtr s.kernPageDirectory va) = pteFrame (row (pdx va)) ∧
    kernIndex (s.ptePtr s.kernPageDirectory va) = ptx va ∧ pteFrame (row (pdx va)) ≠ kf := by
  obtain ⟨h₁, h₂⟩ := h.table _ (pdx_lt va) hw _ (pteTarget_present hp)
  rw [KState.ptePtr, h.pdeAt]
  exact ⟨kernFrame_tablePtr h₂, kernIndex_tablePtr _ _ _, h₁⟩

theorem pteAt_eq : s.pteAt s.kernPageDirectory va = s.mem (pteFrame (row (pdx va))) (ptx va) := by
  obtain ⟨h₁, h₂, _⟩ := h.ptr hp hw
  rw [KState.pteAt, KState.wordAt, h₁, h₂]

theorem setEntry (w : Word) : Loaded row kf (s.setWord (pteFrame (row (pdx va))) (ptx va) w) := by
  obtain ⟨_, _, hne⟩ := h.ptr hp hw
  obtain ⟨h₁, h₂, h₃, h₄, h₅, h₆, h₇⟩ := h
  refine ⟨h₁, h₂, h₃, ?_, h₅, h₆, h₇⟩
  rw [KState.setMem_mem, Radix.setWord_frame_ne _ _ (Ne.symm hne), h₄]

theorem walkPage_setEntry (w : Word) (hv : v ≠ pgnum va) :
    walkPage (Radix.setWord s.mem (pteFrame (row (pdx va))) (ptx va) w) s.cr3 v = walkPage s.mem s.cr3 v := by
  obtain ⟨_, _, hne⟩ := h.ptr hp hw
  rw [walkPage, walkPage]
  split
  · next hlt =>
    have hpg := pgnum_pageAddr hlt
    set a := pageAddr v with ha
    have hrow : ∀ i, Radix.setWord s.mem (pteFrame (row (pdx va))) (ptx va) w kf i = row i := by
      intro i
      rw [Radix.setWord_frame_ne _ _ (Ne.symm hne), h.dir]
    rw [h.loaded, walkIn, walkIn]
    refine dirWalk_congr (by rw [hrow, h.dir]) (fun hpa => ?_)
    rw [h.dir] at hpa ⊢
    rw [Radix.setWord, if_neg]
    rintro ⟨ht, hx⟩
    have hta : pteTarget (row (pdx a)) = some (pteFrame (row (pdx va))) := by
      rw [← ht]
      exact pteTarget_present hpa
    have hd : pdx a = pdx va := by
      by_cases haw : pdx a = pdx uVirtualPageTable
      · rw [haw] at hta
        exact absurd (h.window _ hta) hne
      · exact h.apart _ (pdx_lt a) haw _ (pdx_lt va) hw _ hta (pteTarget_present hp)
    apply hv
    rw [← hpg, pgnum_split, pgnum_split va, hd, hx]
  · rfl

theorem walkPage_va (hn : isPagePresent (s.pteAt s.kernPageDirectory va) = false) :
    walkPage s.mem s.cr3 (pgnum va) = none := by
  rw [h.pteAt_eq hp hw] at hn
  rw [walkPage, if_pos (pgnum_lt va), h.loaded, walkIn, dirWalk_pageAddr, dirWalk_none, h.dir]
  exact Or.inr hn

theorem addEntry (hc : s.TlbCoherent) (hn : isPagePresent (s.pteAt s.kernPageDirectory va) = false) (w : Word) :
    (s.setWord (pteFrame (row (pdx va))) (ptx va) w).TlbCoherent := by
  refine TlbCoherent.setMem hc (fun v hv => h.walkPage_setEntry hp hw w ?_)
  rintro rfl
  exact hv (h.walkPage_va hp hw hn)

theorem changeEntry (hc : s.TlbCoherent) (w : Word) :
    (s.setWord (pteFrame (row (pdx va))) (ptx va) w).tlb.CoherentOff (· = pgnum va)
      (walkPage (Radix.setWord s.mem (pteFrame (row (pdx va))) (ptx va) w) s.cr3) :=
  coherent_setMem hc.off (fun _ hv _ => h.walkPage_setEntry hp hw w hv)

omit hp hw

theorem setFrame {q : ℕ} (hq : q ≠ kf) (g : ℕ → Word) : Loaded row kf (s.setFrame q g) := by
  obtain ⟨h₁, h₂, h₃, h₄, h₅, h₆, h₇⟩ := h
  refine ⟨h₁, h₂, h₃, ?_, h₅, h₆, h₇⟩
  rw [KState.setMem_mem, Radix.setFrame_ne _ _ (Ne.symm hq), h₄]

omit h

theorem setPages (h : Loaded row kf s) (pages : ℕ → PageStatus) : Loaded row kf (s.setPages pages) := by
  obtain ⟨h₁, h₂, h₃, h₄, h₅, h₆, h₇⟩ := h
  exact ⟨h₁, h₂, h₃, h₄, h₅, h₆, h₇⟩

theorem pageDecref {u : Unit} (h : Loaded row kf s) (hr : Returns st (pageDecref ps) s u s') :
    Loaded row kf s' ∧ s'.mem = s.mem ∧ s'.tlb = s.tlb ∧ s'.kernPageDirectory = s.kernPageDirectory ∧
      s'.pagesCount = s.pagesCount := by
  obtain ⟨h₁, h₂, h₃, h₄, h₅, h₆, h₇⟩ := h
  rcases returns_pageDecref.mp hr with ⟨_, _, rfl⟩ | ⟨_, rfl⟩ <;>
    exact ⟨⟨h₁, h₂, h₃, h₄, h₅, h₆, h₇⟩, rfl, rfl, rfl, rfl⟩

include h hp hw

theorem removePage (hc : s.TlbCoherent) (hr : Returns st (removePage s.kernPageDirectory va) s () s') :
    Loaded row kf s' ∧ s'.TlbCoherent ∧ s'.kernPageDirectory = s.kernPageDirectory ∧
      (s.ptePtr s.kernPageDirectory va ≠ 0#32 → pteFrame (s.pteAt s.kernPageDirectory va) < s.pagesCount →
        isPagePresent (s'.pteAt s'.kernPageDirectory va) = false) := by
  obtain ⟨hf, hi, _⟩ := h.ptr hp hw
  obtain ⟨_, _, ⟨hm, rfl⟩ | ⟨q, s₁, hm, _, hdec, rfl⟩⟩ := (returns_removePage h.aligned).mp hr
  · refine ⟨h, hc, rfl, fun h0 hlt => ?_⟩
    by_contra hpres
    have := mappedPage_some.mpr ⟨h0, Bool.not_eq_false _ ▸ hpres, hlt, rfl⟩
    rw [hm] at this
    cases this
  · rw [hf, hi] at hdec
    have hset := h.setEntry hp hw 0#32
    obtain ⟨h₁, hmem, htlb, hkern, hcount⟩ := hset.pageDecref hdec
    have hoff := h.changeEntry hp hw hc 0#32
    have hcr : s₁.cr3 = s.cr3 := h₁.loaded.trans h.loaded.symm
    have hdrop : (s₁.dropTlb va).TlbCoherent := by
      apply coherent_dropTlb
      rw [htlb, hmem, hcr]
      exact hoff
    obtain ⟨k₁, k₂, k₃, k₄, k₅, k₆, k₇⟩ := h₁
    have hdone : Loaded row kf (s₁.dropTlb va) := ⟨k₁, k₂, k₃, k₄, k₅, k₆, k₇⟩
    refine ⟨hdone, hdrop, hkern, fun _ _ => ?_⟩
    rw [hdone.pteAt_eq hp hw, KState.dropTlb_mem, hmem, KState.setMem_mem, Radix.setWord_same]
    exact present_zero

end Loaded

/-- An insertion that leaves nothing stale: a page that is there is not written again without permissions, and
another
page that is there is one that `remove_page` finds. -/
def KState.Flushes (s : KState) (ps : ℕ) (va permissions : Word) : Prop :=
  (pteAddr (s.pteAt s.kernPageDirectory va) = page2pa ps → permissions ≠ 0#32) ∧
  (pteAddr (s.pteAt s.kernPageDirectory va) ≠ page2pa ps →
    isPagePresent (s.pteAt s.kernPageDirectory va) = true → pteFrame (s.pteAt s.kernPageDirectory va) < s.pagesCount)

theorem Loaded.insertPage (h : Loaded row kf s) (hp : isPagePresent (row (pdx va)) = true)
    (hw : pdx va ≠ pdx uVirtualPageTable) (hc : s.TlbCoherent) (hs : s.Flushes ps va perms)
    (hr : Returns st (insertPage s.kernPageDirectory ps va perms) s r s') : Loaded row kf s' ∧ s'.TlbCoherent := by
  obtain ⟨p, s₁, hg, hins⟩ := returns_insertPage.mp hr
  have hpde : isPagePresent (s.pdeAt s.kernPageDirectory va) = true := by
    rw [h.pdeAt]
    exact hp
  obtain ⟨_, ⟨_, rfl, rfl⟩ | ⟨habs, _⟩⟩ := (returns_getPageTable h.aligned).mp hg
  · obtain ⟨hf, hi, _⟩ := h.ptr hp hw
    rcases hins with ⟨_, _, rfl⟩ | ⟨h0, _, _, hins⟩
    · exact ⟨h, hc⟩
    · cases hins with
      | already _ _ => exact ⟨h, hc⟩
      | rewritten he hz _ => exact absurd hz (hs.1 he)
      | added _ hn _ =>
        rw [hf, hi]
        have hadd := h.setPages (Function.update s₁.pages ps
          { s₁.pages ps with refs := (s₁.pages ps).refs + 1#32 })
        exact ⟨hadd.setEntry hp hw _, hadd.addEntry hp hw hc hn _⟩
      | @replaced s₂ he hn hrem _ =>
        obtain ⟨h₂, hc₂, hk₂, hgone⟩ := h.removePage hp hw hc hrem
        rw [hf, hi]
        have hadd := h₂.setPages (Function.update s₂.pages ps
          { s₂.pages ps with refs := (s₂.pages ps).refs + 1#32 })
        exact ⟨hadd.setEntry hp hw _, hadd.addEntry hp hw hc₂ (hgone h0 (hs.2 he hn)) _⟩
  · rw [hpde] at habs
    cases habs

inductive LoadedCall (st : Bool) : KState → KState → Prop
  | insertPage {s s' : KState} (ps : ℕ) (va perms : Word) (r : Int)
      (hp : isPagePresent (s.pdeAt s.kernPageDirectory va) = true) (hw : pdx va ≠ pdx uVirtualPageTable)
      (hs : s.Flushes ps va perms) (hr : Returns st (insertPage s.kernPageDirectory ps va perms) s r s') :
      LoadedCall st s s'
  | removePage {s s' : KState} (va : Word) (hp : isPagePresent (s.pdeAt s.kernPageDirectory va) = true)
      (hw : pdx va ≠ pdx uVirtualPageTable) (hr : Returns st (removePage s.kernPageDirectory va) s () s') :
      LoadedCall st s s'

theorem LoadedCall.coherent (hcall : LoadedCall st s s') (h : Loaded row kf s) (hc : s.TlbCoherent) :
    Loaded row kf s' ∧ s'.TlbCoherent := by
  cases hcall with
  | insertPage ps va perms r hp hw hs hr =>
    rw [h.pdeAt] at hp
    exact h.insertPage hp hw hc hs hr
  | removePage va hp hw hr =>
    rw [h.pdeAt] at hp
    obtain ⟨h', hc', _⟩ := h.removePage hp hw hc hr
    exact ⟨h', hc'⟩

theorem LoadedCall.run (hrun : Relation.ReflTransGen (LoadedCall st) s s') (h : Loaded row kf s)
    (hc : s.TlbCoherent) :
    Loaded row kf s' ∧ s'.TlbCoherent := by
  induction hrun with
  | refl => exact ⟨h, hc⟩
  | tail _ hcall ih => exact hcall.coherent ih.1 ih.2

end Cezos
