import Cezos.Kernel.BootAlloc
import Cezos.Kernel.FrameInv

namespace Cezos

open Lib

variable {st : Bool} {s s' : KState}

namespace KState

def freeRange (s : KState) (lo n : ℕ) : KState :=
  (s.setPages (fun i => if lo ≤ i ∧ i < lo + n then ⟨if i = lo then s.pageFreeList else some (i - 1), 0#32⟩
    else s.pages i)).setFreeList (if n = 0 then s.pageFreeList else some (lo + n - 1))

def usedRange (s : KState) (lo n : ℕ) : KState :=
  s.setPages (fun i => if lo ≤ i ∧ i < lo + n then ⟨none, 1#32⟩ else s.pages i)

end KState

theorem returns_pushFree {i : ℕ} {u : Unit} : Returns st (pushFree i) s u s' ↔ s' = s.pushFree i := returns_modify

theorem returns_markUsed {i : ℕ} {u : Unit} :
    Returns st (markUsed i) s u s' ↔ s' = (s.setNextFree i none).setRefs i 1#32 := returns_modify

theorem returns_freeRange {lo n : ℕ} {u : Unit} :
    Returns st (Prog.forUp pushFree lo n) s u s' ↔ s' = s.freeRange lo n := by
  induction n generalizing lo s with
  | zero =>
    have hz : s.freeRange lo 0 = s := by
      have hp : (fun i => if lo ≤ i ∧ i < lo + 0 then (⟨if i = lo then s.pageFreeList else some (i - 1), 0#32⟩ :
          PageStatus) else s.pages i) = s.pages := by
        funext i
        rw [if_neg (by omega)]
      rw [KState.freeRange, hp]
      rfl
    rw [returns_forUp_zero, hz]
  | succ n ih =>
    have hs : s.freeRange lo (n + 1) = (s.pushFree lo).freeRange (lo + 1) n := by
      simp only [KState.freeRange, KState.setPages, KState.setFreeList, KState.mk.injEq, true_and, and_true]
      constructor
      · funext i
        simp only [Function.update_apply]
        grind
      · grind
    rw [returns_forUp_succ, hs]
    simp only [returns_pushFree, ih]
    exact ⟨fun ⟨_, h, h'⟩ => h ▸ h', fun h => ⟨_, rfl, h⟩⟩

theorem returns_usedRange {lo n : ℕ} {u : Unit} :
    Returns st (Prog.forUp markUsed lo n) s u s' ↔ s' = s.usedRange lo n := by
  induction n generalizing lo s with
  | zero =>
    have hz : s.usedRange lo 0 = s := by
      have hp : (fun i => if lo ≤ i ∧ i < lo + 0 then (⟨none, 1#32⟩ : PageStatus) else s.pages i) = s.pages := by
        funext i
        rw [if_neg (by omega)]
      rw [KState.usedRange, hp]
      rfl
    rw [returns_forUp_zero, hz]
  | succ n ih =>
    have hs : s.usedRange lo (n + 1) = ((s.setNextFree lo none).setRefs lo 1#32).usedRange (lo + 1) n := by
      simp only [KState.usedRange, KState.setPages, KState.mk.injEq, true_and, and_true]
      funext i
      simp only [Function.update_apply]
      grind
    rw [returns_forUp_succ, hs]
    simp only [returns_markUsed, ih]
    exact ⟨fun ⟨_, h, h'⟩ => h ▸ h', fun h => ⟨_, rfl, h⟩⟩

theorem freeRange_freeList (lo n : ℕ) {L : List ℕ} (h : s.FreeList L) (hL : ∀ q ∈ L, q < lo ∨ lo + n ≤ q) :
    (s.freeRange lo n).FreeList ((List.range' lo n).reverse ++ L) := by
  have hrun : ∀ m ≤ n, Chain (fun p => ((s.freeRange lo n).pages p).nextFree)
      (if m = 0 then s.pageFreeList else some (lo + m - 1)) ((List.range' lo m).reverse ++ L) := by
    intro m hm
    induction m with
    | zero =>
      refine h.congr (fun q hq => ?_)
      have hq := hL q hq
      simp only [KState.freeRange, KState.setFreeList_pages, KState.setPages_pages]
      rw [if_neg (by omega)]
    | succ m ih =>
      rw [List.range'_concat, List.reverse_append, if_neg (by omega), Nat.one_mul]
      refine ⟨rfl, ?_⟩
      have hnext : ((s.freeRange lo n).pages (lo + m)).nextFree =
          if m = 0 then s.pageFreeList else some (lo + m - 1) := by
        simp only [KState.freeRange, KState.setFreeList_pages, KState.setPages_pages]
        rw [if_pos (by omega)]
        simp
      change Chain _ ((s.freeRange lo n).pages (lo + m)).nextFree _
      rw [hnext]
      exact ih (by omega)
  exact hrun n (Nat.le_refl _)

def usedCount (frontier : Word) : ℕ := (paddr frontier / pageSize).toNat

theorem usedCount_eq (a : Word) : usedCount a = kernFrame a := by
  rw [usedCount, BitVec.toNat_udiv, kernFrame_eq, paddr]
  rfl

def InitUsed (basemem used q : ℕ) : Prop := q = 0 ∨ (max 1 basemem ≤ q ∧ q < used)

def initialList (basemem used count : ℕ) : List ℕ :=
  (List.range' (max (max 1 basemem) used) (count - max (max 1 basemem) used)).reverse ++
    (List.range' 1 (basemem - 1)).reverse

theorem mem_initialList {basemem used count q : ℕ} :
    q ∈ initialList basemem used count ↔ (1 ≤ q ∧ q < basemem) ∨ (1 ≤ q ∧ basemem ≤ q ∧ used ≤ q ∧ q < count) := by
  simp only [initialList, List.mem_append, List.mem_reverse, List.mem_range'_1]
  omega

theorem returns_initPages {u : Unit} :
    Returns st initPages s u s' ↔
      s' = (((((s.setNextFree 0 none).setRefs 0 1#32).freeRange 1 (s.pagesBasememCount - 1)).setBootNext
        s.bootFree).usedRange (max 1 s.pagesBasememCount)
          (usedCount s.bootFree - max 1 s.pagesBasememCount)).freeRange
            (max (max 1 s.pagesBasememCount) (usedCount s.bootFree))
            (s.pagesCount - max (max 1 s.pagesBasememCount) (usedCount s.bootFree)) := by
  simp only [initPages, returns_bind, returns_markUsed, returns_read, returns_freeRange, returns_bootAlloc,
    returns_usedRange, if_true, ne_eq, not_true_eq_false, false_imp_iff, true_and]
  constructor
  · rintro ⟨_, _, rfl, _, _, ⟨rfl, rfl⟩, _, _, rfl, _, _, ⟨rfl, rfl⟩, _, _, rfl, _, _, ⟨rfl, rfl⟩, rfl⟩
    rfl
  · rintro rfl
    exact ⟨(), _, rfl, _, _, ⟨rfl, rfl⟩, (), _, rfl, _, _, ⟨rfl, rfl⟩, (), _, rfl, _, _, ⟨rfl, rfl⟩, rfl⟩

structure SameSetup (s s' : KState) : Prop where
  count : s'.pagesCount = s.pagesCount
  basemem : s'.pagesBasememCount = s.pagesBasememCount
  kern : s'.kernPageDirectory = s.kernPageDirectory
  base : s'.pagesBase = s.pagesBase
  next : s'.bootNextFree = s.bootNextFree
  loaded : s'.cr3 = s.cr3
  refill : s'.refill = s.refill

theorem SameSetup.refl : SameSetup s s := ⟨rfl, rfl, rfl, rfl, rfl, rfl, rfl⟩

theorem SameSetup.trans {s₁ : KState} (h : SameSetup s s₁) (h' : SameSetup s₁ s') : SameSetup s s' :=
  ⟨h'.count.trans h.count, h'.basemem.trans h.basemem, h'.kern.trans h.kern, h'.base.trans h.base,
    h'.next.trans h.next, h'.loaded.trans h.loaded, h'.refill.trans h.refill⟩

theorem initPages_list (hl : s.pageFreeList = none) (hr : Returns st initPages s () s') :
    s'.FreeList (initialList s.pagesBasememCount (kernFrame s.bootFree) s.pagesCount) ∧
      (∀ q ∈ initialList s.pagesBasememCount (kernFrame s.bootFree) s.pagesCount, (s'.pages q).refs = 0#32) ∧
      (∀ q, InitUsed s.pagesBasememCount (kernFrame s.bootFree) q → (s'.pages q).refs = 1#32) := by
  obtain rfl := returns_initPages.mp hr
  rw [usedCount_eq]
  set b := s.pagesBasememCount with hb
  set used := kernFrame s.bootFree with hu
  set s₁ := (s.setNextFree 0 none).setRefs 0 1#32 with hs₁
  have hl₁ : s₁.FreeList [] := hl
  have hl₂ : (s₁.freeRange 1 (b - 1)).FreeList (List.range' 1 (b - 1)).reverse := by
    have hrange := freeRange_freeList 1 (b - 1) hl₁ (by simp)
    simpa using hrange
  set s₂ := ((s₁.freeRange 1 (b - 1)).setBootNext s.bootFree).usedRange (max 1 b) (used - max 1 b) with hs₂
  have hl₃ : s₂.FreeList (List.range' 1 (b - 1)).reverse := by
    refine hl₂.congr (fun q hq => ?_)
    simp only [List.mem_reverse, List.mem_range'_1] at hq
    simp only [hs₂, KState.usedRange, KState.setPages_pages, KState.setBootNext_pages]
    rw [if_neg (by omega)]
  refine ⟨?_, ?_, ?_⟩
  · refine freeRange_freeList _ _ hl₃ (fun q hq => ?_)
    simp only [List.mem_reverse, List.mem_range'_1] at hq
    omega
  · intro q hq
    rw [mem_initialList] at hq
    simp only [hs₂, KState.freeRange, KState.usedRange, KState.setPages_pages, KState.setBootNext_pages,
      KState.setFreeList_pages]
    split
    · rfl
    · rw [if_neg (by omega), if_pos (by omega)]
  · intro q hq
    rw [InitUsed] at hq
    simp only [hs₂, KState.freeRange, KState.usedRange, KState.setPages_pages, KState.setBootNext_pages,
      KState.setFreeList_pages]
    rw [if_neg (by omega)]
    split
    · rfl
    · rw [if_neg (by omega)]
      have h0 : q = 0 := by omega
      subst h0
      simp [hs₁]

theorem initPages_spec (hl : s.pageFreeList = none) (hn : s.bootNextFree ≠ 0#32) :
    ∃ s', Returns true initPages s () s' ∧ SameSetup s s' ∧ s'.mem = s.mem ∧
      s'.FreeList (initialList s.pagesBasememCount (kernFrame s.bootNextFree) s.pagesCount) ∧
      (∀ q ∈ initialList s.pagesBasememCount (kernFrame s.bootNextFree) s.pagesCount, (s'.pages q).refs = 0#32) ∧
      (∀ q, InitUsed s.pagesBasememCount (kernFrame s.bootNextFree) q → (s'.pages q).refs = 1#32) := by
  have hfree : s.bootFree = s.bootNextFree := by rw [KState.bootFree, if_neg hn]
  have hr := (@returns_initPages true s _ ()).mpr rfl
  have hlist := initPages_list hl hr
  rw [hfree] at hlist hr
  exact ⟨_, hr, ⟨rfl, rfl, rfl, rfl, rfl, rfl, rfl⟩, rfl, hlist⟩

end Cezos
