import Cezos.Kernel.Spec

namespace Cezos

open Lib

variable {st : Bool} {s s' : KState} {pgdir va : Word}

namespace KState

def pdeAt (s : KState) (pgdir va : Word) : Word := s.mem (kernFrame pgdir) (pdx va)

def ptePtr (s : KState) (pgdir va : Word) : Word := tablePtr s.pagesCount (s.pdeAt pgdir va) va

def pteAt (s : KState) (pgdir va : Word) : Word := s.wordAt (s.ptePtr pgdir va)

abbrev allocZero (s : KState) (ps : ℕ) : KState :=
  (s.popFree ps).setFrame (kernFrame (s.kva ps)) (fun _ => 0#32)

abbrev takeTable (s : KState) (ps : ℕ) : KState :=
  (s.allocZero ps).setRefs ps (((s.allocZero ps).pages ps).refs + 1#32)

abbrev newTable (s : KState) (pgdir va : Word) (ps : ℕ) : KState :=
  (s.takeTable ps).setWord (kernFrame pgdir) (pdx va) (page2pa ps ||| tablePerm)

section NewTable

variable {ps f : ℕ}

theorem newTable_refs (q : ℕ) : ((s.newTable pgdir va ps).pages q).refs =
    if q = ps then (s.pages ps).refs + 1#32 else (s.pages q).refs := by
  rw [setMem_pages, setRefs_refs, setMem_pages, popFree_refs, popFree_refs]

theorem newTable_pdeAt : (s.newTable pgdir va ps).pdeAt pgdir va = page2pa ps ||| tablePerm := Radix.setWord_same _ _

variable (hk : kernFrame (s.kva ps) = ps) (hne : kernFrame pgdir ≠ ps)

include hk

theorem newTable_mem : (s.newTable pgdir va ps).mem =
    Radix.setWord (Radix.setFrame s.mem ps (fun _ => 0#32)) (kernFrame pgdir) (pdx va)
      (page2pa ps ||| tablePerm) := by
  rw [setMem_mem, setPages_mem, setMem_mem, hk]
  rfl

include hne

theorem newTable_dir (va : Word) (i : ℕ) : (s.newTable pgdir va ps).mem (kernFrame pgdir) i =
    if i = pdx va then page2pa ps ||| tablePerm else s.mem (kernFrame pgdir) i := by
  rw [newTable_mem hk, Radix.setWord, Radix.setFrame_ne _ _ hne]
  simp

theorem newTable_zero (va : Word) : (s.newTable pgdir va ps).mem ps = fun _ => 0#32 := by
  rw [newTable_mem hk, Radix.setWord_frame_ne _ _ (Ne.symm hne), Radix.setFrame_same]

omit hne in
theorem newTable_frame (h₁ : f ≠ ps) (h₂ : f ≠ kernFrame pgdir) : (s.newTable pgdir va ps).mem f = s.mem f := by
  rw [newTable_mem hk, Radix.setWord_frame_ne _ _ h₂, Radix.setFrame_ne _ _ h₁]

end NewTable

end KState

theorem pteAt_eq (h : pteFrame (s.pdeAt pgdir va) < s.pagesCount) :
    s.pteAt pgdir va = s.mem (pteFrame (s.pdeAt pgdir va)) (ptx va) := by
  rw [KState.pteAt, KState.wordAt, KState.ptePtr, kernFrame_tablePtr h, kernIndex_tablePtr]

theorem returns_getPageTable (ha : pgoff pgdir = 0) {create : Bool} {p : Word} :
    Returns st (getPageTable pgdir va create) s p s' ↔
      (st = true → s.reaches (entryPtr pgdir (pdx va)) false = true) ∧
      ((isPagePresent (s.pdeAt pgdir va) = true ∧ p = s.ptePtr pgdir va ∧ s' = s) ∨
        (isPagePresent (s.pdeAt pgdir va) = false ∧ create = true ∧ ∃ ps, s.pageFreeList = some ps ∧
          p = tablePtr s.pagesCount (page2pa ps ||| tablePerm) va ∧ s' = s.newTable pgdir va ps ∧
          (st = true → s.inKernelImage (kernFrame (s.kva ps)) = false ∧ s.reaches (s.kva ps) true = true ∧
            (s.takeTable ps).reaches (entryPtr pgdir (pdx va)) true = true))) := by
  have hf := kernFrame_entryPtr ha (pdx_lt va)
  have hi := kernIndex_entryPtr ha (pdx_lt va)
  simp only [getPageTable, returns_bind, returns_load, KState.wordAt, hf, hi, returns_ite, returns_errorLoop,
    and_false,
    false_or]
  change _ ↔ _ ∧ ((isPagePresent (s.mem (kernFrame pgdir) (pdx va)) = true ∧ _) ∨
    (isPagePresent (s.mem (kernFrame pgdir) (pdx va)) = false ∧ _))
  cases hp : isPagePresent (s.mem (kernFrame pgdir) (pdx va)) with
  | true =>
    constructor
    · rintro ⟨_, s, ⟨rfl, rfl, hc⟩, h⟩
      simp only [hp, Bool.not_true, Bool.false_and, Bool.false_eq_true, not_false_eq_true, true_and,
        false_and, false_or] at h
      obtain ⟨_, _, h, h'⟩ := h
      obtain ⟨rfl, rfl⟩ := returns_kaddr.mp h
      obtain ⟨rfl, rfl⟩ := returns_pure.mp h'
      exact ⟨hc, Or.inl ⟨rfl, rfl, rfl⟩⟩
    · rintro ⟨hc, ⟨_, rfl, rfl⟩ | ⟨h, _⟩⟩
      · refine ⟨_, s', ⟨rfl, rfl, hc⟩, ?_⟩
        simp only [hp, Bool.not_true, Bool.false_and, Bool.false_eq_true, not_false_eq_true, true_and,
          false_and, false_or]
        exact ⟨_, _, returns_kaddr.mpr ⟨rfl, rfl⟩, returns_pure.mpr ⟨rfl, rfl⟩⟩
      · cases h
  | false =>
    have hz : 1#32 &&& pageZeroFilled = pageZeroFilled := by decide
    simp only [returns_pageAlloc_zero hz, returns_store, hf, hi]
    constructor
    · rintro ⟨_, s, ⟨rfl, rfl, hc⟩, h⟩
      simp only [hp, Bool.not_false, Bool.true_and, Bool.not_eq_true', Bool.not_eq_false, true_and,
        not_true_eq_false, false_and, or_false] at h
      obtain ⟨hcr, ps, _, ⟨hl, rfl, hc₁⟩, _, _, hi', _, _, ⟨rfl, hc₂⟩, _, _, hk, hr⟩ := h
      obtain rfl := returns_incRefs.mp hi'
      obtain ⟨rfl, rfl⟩ := returns_kaddr.mp hk
      obtain ⟨rfl, rfl⟩ := returns_pure.mp hr
      exact ⟨hc, Or.inr ⟨trivial, hcr, ps, hl, rfl, rfl, fun hs => ⟨(hc₁ hs).1, (hc₁ hs).2, hc₂ hs⟩⟩⟩
    · rintro ⟨hc, ⟨h, _⟩ | ⟨_, hcr, ps, hl, rfl, rfl, hc'⟩⟩
      · cases h
      · refine ⟨_, s, ⟨rfl, rfl, hc⟩, ?_⟩
        simp only [hp, Bool.not_false, Bool.true_and, Bool.not_eq_true', Bool.not_eq_false, true_and,
          not_true_eq_false, false_and, or_false]
        exact ⟨hcr, ps, _, ⟨hl, rfl, fun hs => ⟨(hc' hs).1, (hc' hs).2.1⟩⟩, (), _,
          returns_incRefs.mpr rfl, (), _, ⟨rfl, fun hs => (hc' hs).2.2⟩, _, _,
          returns_kaddr.mpr ⟨rfl, rfl⟩, returns_pure.mpr ⟨rfl, rfl⟩⟩

def KState.mappedPage (s : KState) (pgdir va : Word) : Option ℕ :=
  if s.ptePtr pgdir va = 0#32 ∨ isPagePresent (s.pteAt pgdir va) = false ∨
      s.pagesCount ≤ pteFrame (s.pteAt pgdir va) then none
  else some (pteFrame (s.pteAt pgdir va))

def KState.foundPtr (s : KState) (pgdir va : Word) : Option Word :=
  if s.ptePtr pgdir va = 0#32 ∨ isPagePresent (s.pteAt pgdir va) = false then none
  else some (s.ptePtr pgdir va)

theorem mappedPage_some {q : ℕ} :
    s.mappedPage pgdir va = some q ↔ s.ptePtr pgdir va ≠ 0#32 ∧
      isPagePresent (s.pteAt pgdir va) = true ∧ q < s.pagesCount ∧ pteFrame (s.pteAt pgdir va) = q := by
  unfold KState.mappedPage
  split
  · next h =>
    simp only [reduceCtorEq, false_iff]
    rintro ⟨h₁, h₂, h₃, h₄⟩
    rcases h with h | h | h
    · exact h₁ h
    · rw [h] at h₂
      cases h₂
    · omega
  · next h =>
    simp only [not_or, Bool.not_eq_false, not_le] at h
    simp only [Option.some.injEq, ne_eq]
    constructor
    · rintro rfl
      exact ⟨h.1, h.2.1, h.2.2, rfl⟩
    · rintro ⟨_, _, _, h₄⟩
      exact h₄

theorem foundPtr_of_mapped {q : ℕ} (h : s.mappedPage pgdir va = some q) :
    s.foundPtr pgdir va = some (s.ptePtr pgdir va) := by
  obtain ⟨h0, hp, _⟩ := mappedPage_some.mp h
  simp [KState.foundPtr, h0, hp]

theorem returns_searchPage (ha : pgoff pgdir = 0) {r : Option ℕ × Option Word} :
    Returns st (searchPage pgdir va) s r s' ↔
      isPagePresent (s.pdeAt pgdir va) = true ∧ s' = s ∧ r.1 = s.mappedPage pgdir va ∧
        r.2 = s.foundPtr pgdir va ∧
        (st = true → s.reaches (entryPtr pgdir (pdx va)) false = true ∧
          (s.ptePtr pgdir va = 0#32 ∨ s.reaches (s.ptePtr pgdir va) false = true)) := by
  obtain ⟨r₁, r₂⟩ := r
  have hpure : ∀ {x y : Option ℕ × Option Word} {t t' : KState},
      Returns st (pure x : Kern (Option ℕ × Option Word)) t y t' ↔ y = x ∧ t' = t := returns_pure
  simp only [searchPage, returns_bind, returns_getPageTable ha, returns_ite, returns_load, hpure,
    returns_pa2page, Bool.false_eq_true, false_and, and_false, or_false, Prod.mk.injEq]
  change _ ↔ _ ∧ _ ∧ _ ∧ _ ∧ (st = true → _ ∧ (_ ∨ _))
  constructor
  · rintro ⟨p, s, ⟨hc, hp, rfl, rfl⟩, ⟨h0, ⟨rfl, rfl⟩, rfl⟩ | ⟨h0, e, s, ⟨rfl, rfl, hc'⟩, h⟩⟩
    · simp only [KState.mappedPage, KState.foundPtr, h0, true_or, if_true]
      exact ⟨hp, trivial, trivial, trivial, fun hs => ⟨hc hs, trivial⟩⟩
    · rcases h with ⟨hn, ⟨rfl, rfl⟩, rfl⟩ | ⟨hn, ps, s, ⟨rfl, rfl⟩, ⟨rfl, rfl⟩, rfl⟩
      · have hn' : isPagePresent (s'.pteAt pgdir va) = false := by simpa [KState.pteAt] using hn
        refine ⟨hp, rfl, ?_, ?_, fun hs => ⟨hc hs, Or.inr (hc' hs)⟩⟩
        · simp [KState.mappedPage, hn']
        · simp [KState.foundPtr, hn']
      · have hn' : isPagePresent (s'.pteAt pgdir va) = true := by simpa [KState.pteAt] using hn
        refine ⟨hp, rfl, ?_, ?_, fun hs => ⟨hc hs, Or.inr (hc' hs)⟩⟩
        · simp only [KState.mappedPage, h0, hn', false_or, Bool.true_eq_false]
          rfl
        · simp [KState.foundPtr, hn', h0]
  · rintro ⟨hp, rfl, rfl, rfl, hc⟩
    refine ⟨_, s', ⟨fun hs => (hc hs).1, hp, rfl, rfl⟩, ?_⟩
    by_cases h0 : s'.ptePtr pgdir va = 0#32
    · exact Or.inl ⟨h0, by simp [KState.mappedPage, KState.foundPtr, h0], rfl⟩
    · refine Or.inr ⟨h0, _, s', ⟨rfl, rfl, fun hs => (hc hs).2.resolve_left h0⟩, ?_⟩
      rw [← KState.pteAt]
      cases hn' : isPagePresent (s'.pteAt pgdir va) with
      | false =>
        refine Or.inl ⟨?_, ?_, rfl⟩
        · simp
        · simp [KState.mappedPage, KState.foundPtr, hn']
      | true =>
        refine Or.inr ⟨by simp, _, s', ⟨rfl, rfl⟩, ?_, rfl⟩
        simp only [KState.mappedPage, KState.foundPtr, h0, hn', false_or, Bool.true_eq_false, if_false]
        exact ⟨rfl, trivial⟩

theorem returns_removePage (ha : pgoff pgdir = 0) {u : Unit} :
    Returns st (removePage pgdir va) s u s' ↔
      isPagePresent (s.pdeAt pgdir va) = true ∧
      (st = true → s.reaches (entryPtr pgdir (pdx va)) false = true ∧
        (s.ptePtr pgdir va = 0#32 ∨ s.reaches (s.ptePtr pgdir va) false = true)) ∧
      ((s.mappedPage pgdir va = none ∧ s' = s) ∨
        ∃ q s₁, s.mappedPage pgdir va = some q ∧
          (st = true → s.reaches (s.ptePtr pgdir va) true = true) ∧
          Returns st (pageDecref q)
            (s.setWord (kernFrame (s.ptePtr pgdir va)) (kernIndex (s.ptePtr pgdir va)) 0#32) () s₁ ∧
          s' = s₁.dropTlb va) := by
  simp only [removePage, returns_bind, returns_searchPage ha]
  constructor
  · rintro ⟨⟨r₁, r₂⟩, s, ⟨hp, rfl, rfl, rfl, hc⟩, h⟩
    refine ⟨hp, hc, ?_⟩
    cases hm : s.mappedPage pgdir va with
    | none =>
      simp only [hm] at h
      exact Or.inl ⟨rfl, (returns_pure.mp h).2⟩
    | some q =>
      simp only [hm, foundPtr_of_mapped hm, Option.getD_some, returns_bind, returns_store] at h
      obtain ⟨_, _, ⟨rfl, hr⟩, _, s₁, hd, hi⟩ := h
      exact Or.inr ⟨q, s₁, rfl, hr, hd, returns_invlpg.mp hi⟩
  · rintro ⟨hp, hc, h⟩
    refine ⟨(s.mappedPage pgdir va, s.foundPtr pgdir va), s, ⟨hp, rfl, rfl, rfl, hc⟩, ?_⟩
    rcases h with ⟨hm, rfl⟩ | ⟨q, s₁, hm, hr, hd, rfl⟩
    · simp only [hm]
      exact returns_pure.mpr ⟨rfl, rfl⟩
    · simp only [hm, foundPtr_of_mapped hm, Option.getD_some, returns_bind, returns_store]
      exact ⟨(), _, ⟨rfl, hr⟩, (), s₁, hd, returns_invlpg.mpr rfl⟩

def pageEntry (ps : ℕ) (permissions : Word) : Word := page2pa ps ||| permissions ||| pteP

inductive Inserts (st : Bool) (pgdir : Word) (ps : ℕ) (va permissions p : Word) (s : KState) : KState → Prop where
  | already (he : pteAddr (s.wordAt p) = page2pa ps) (hp : permissions ≠ 0#32) :
      Inserts st pgdir ps va permissions p s s
  | rewritten (he : pteAddr (s.wordAt p) = page2pa ps) (hp : permissions = 0#32)
      (hc : st = true → (s.dropTlb va).reaches p true = true) :
      Inserts st pgdir ps va permissions p s
        ((s.dropTlb va).setWord (kernFrame p) (kernIndex p) (pageEntry ps permissions))
  | added (he : pteAddr (s.wordAt p) ≠ page2pa ps) (hn : isPagePresent (s.wordAt p) = false)
      (hc : st = true → (s.setRefs ps ((s.pages ps).refs + 1#32)).reaches p true = true) :
      Inserts st pgdir ps va permissions p s
        ((s.setRefs ps ((s.pages ps).refs + 1#32)).setWord (kernFrame p) (kernIndex p) (pageEntry ps permissions))
  | replaced {s₁ : KState} (he : pteAddr (s.wordAt p) ≠ page2pa ps) (hn : isPagePresent (s.wordAt p) = true)
      (hr : Returns st (removePage pgdir va) s () s₁)
      (hc : st = true → (s₁.setRefs ps ((s₁.pages ps).refs + 1#32)).reaches p true = true) :
      Inserts st pgdir ps va permissions p s
        ((s₁.setRefs ps ((s₁.pages ps).refs + 1#32)).setWord (kernFrame p) (kernIndex p) (pageEntry ps permissions))

theorem returns_insertPage {ps : ℕ} {permissions : Word} {r : Int} :
    Returns st (insertPage pgdir ps va permissions) s r s' ↔
      ∃ p s₁, Returns st (getPageTable pgdir va true) s p s₁ ∧
        ((p = 0#32 ∧ r = -1 ∧ s' = s₁) ∨
          (p ≠ 0#32 ∧ r = 0 ∧ (st = true → s₁.reaches p false = true) ∧
            Inserts st pgdir ps va permissions p s₁ s')) := by
  have hpure : ∀ {x y : Int} {t t' : KState}, Returns st (pure x : Kern Int) t y t' ↔ y = x ∧ t' = t :=
    returns_pure
  simp only [insertPage, returns_bind, returns_ite, returns_load, hpure, returns_store, invalidateTlb,
    returns_invlpg, returns_incRefs]
  refine exists_congr fun p => exists_congr fun s₁ => and_congr_right fun _ => or_congr_right ?_
  refine and_congr_right fun h0 => ?_
  constructor
  · rintro ⟨e, s, ⟨rfl, rfl, hc⟩, ⟨he, h⟩ | ⟨he, h⟩⟩
    · rcases h with ⟨hp, rfl, rfl⟩ | ⟨hp, _, _, rfl, _, _, ⟨rfl, hw⟩, rfl, rfl⟩
      · exact ⟨rfl, hc, .already he hp⟩
      · exact ⟨rfl, hc, .rewritten he (by simpa using hp) hw⟩
    · rcases h with ⟨hn, _, s₂, hr, _, _, rfl, _, _, ⟨rfl, hw⟩, rfl, rfl⟩ |
        ⟨hn, _, _, rfl, _, _, ⟨rfl, hw⟩, rfl, rfl⟩
      · exact ⟨rfl, hc, .replaced he hn hr hw⟩
      · exact ⟨rfl, hc, .added he (by simpa using hn) hw⟩
  · rintro ⟨rfl, hc, h⟩
    refine ⟨_, s₁, ⟨rfl, rfl, hc⟩, ?_⟩
    cases h with
    | already he hp => exact Or.inl ⟨he, Or.inl ⟨hp, rfl, rfl⟩⟩
    | rewritten he hp hw =>
      exact Or.inl ⟨he, Or.inr ⟨by simpa using hp, (), _, rfl, (), _, ⟨rfl, hw⟩, rfl, rfl⟩⟩
    | added he hn hw =>
      exact Or.inr ⟨he, Or.inr ⟨by simp [hn], (), _, rfl, (), _, ⟨rfl, hw⟩, rfl, rfl⟩⟩
    | replaced he hn hr hw =>
      exact Or.inr ⟨he, Or.inl ⟨hn, (), _, hr, (), _, rfl, (), _, ⟨rfl, hw⟩, rfl, rfl⟩⟩

end Cezos
