import Cezos.Kernel.PageList
import Cezos.Lib.Trace

namespace Cezos

open Lib

variable {st : Bool} {s₀ s s' x y : KState} {L : List ℕ} {ps p : ℕ}

/-- The call answers what its caller tests for or enters an error loop, and has changed no list, counter or table. -/
def FailsCleanly {α : Type} (failed : α → Prop) (s : KState) (x : Kern α) : Prop :=
  ∃ s', s'.pageFreeList = s.pageFreeList ∧ s'.pages = s.pages ∧ s'.mem = s.mem ∧
    ((∃ a, failed a ∧ Returns false x s a s') ∨ ∃ msg, Loops x s msg s')

/-- Whether it returns or loops, the call has made good accesses only. -/
def GoodAccesses {α : Type} (s : KState) (x : Kern α) : Prop :=
  ∃ s', (∃ a, Returns true x s a s') ∨ ∃ msg, x s = .errorLoop msg s' true

/-- How a call ends that follows `NULL`: where address 0 is not mapped it faults, and else what stands there becomes
the free list
before the call loops. -/
def FollowsNull {α : Type} (s : KState) (x : Kern α) : Prop :=
  match s.walk 0#32 with
  | none => Faults x s s
  | some e =>
      x s = .errorLoop "Not enought memory\n" (s.setFreeList (pageStatusAt s.pagesBase (s.mem e.frame 0))) false

namespace FollowsNull

variable {α β : Type} {x : Kern α} {f : α → Kern β} {a : α}

theorem head (h : FollowsNull s x) : FollowsNull s (x >>= f) := by
  unfold FollowsNull at h ⊢
  split at h
  · exact h.head
  · exact errorLoop_head h

theorem tail (hx : Returns st x s a s) (h : FollowsNull s (f a)) : FollowsNull s (x >>= f) := by
  unfold FollowsNull at h ⊢
  split at h
  · exact h.tail hx
  · obtain ⟨c, hx, _⟩ := hx
    rw [errorLoop_tail hx h, Bool.and_false]

theorem not_good (h : FollowsNull s x) : ¬ GoodAccesses s x := by
  unfold FollowsNull at h
  rintro ⟨_, ⟨_, hr⟩ | ⟨_, hr⟩⟩
  · split at h
    · exact h.not_returns hr
    · exact Loops.not_returns ⟨_, h⟩ hr
  · split at h
    · exact h.not_loops ⟨_, hr⟩
    · rw [h] at hr
      cases hr

theorem failsCleanly_iff {failed : α → Prop} (hl : s.pageFreeList = none) (h : FollowsNull s x) :
    FailsCleanly failed s x ↔ ∃ e, s.walk 0#32 = some e ∧ s.mem e.frame 0 = 0#32 := by
  unfold FollowsNull at h
  cases hw : s.walk 0#32 with
  | none =>
    simp only [hw] at h
    refine iff_of_false ?_ (by simp)
    rintro ⟨_, _, _, _, ⟨_, _, hr⟩ | ⟨_, hr⟩⟩
    · exact h.not_returns hr
    · exact h.not_loops hr
  | some e =>
    simp only [hw] at h
    constructor
    · rintro ⟨_, hlist, _, _, ⟨_, _, hr⟩ | ⟨_, _, hr⟩⟩
      · exact absurd hr (Loops.not_returns ⟨_, h⟩)
      · rw [h] at hr
        cases hr
        rw [KState.setFreeList_pageFreeList, hl, pageStatusAt] at hlist
        refine ⟨e, rfl, ?_⟩
        by_contra hne
        rw [if_neg hne] at hlist
        cases hlist
    · rintro ⟨e', he, hz⟩
      obtain rfl := Option.some.inj he
      have hlist : (s.setFreeList (pageStatusAt s.pagesBase (s.mem e.frame 0))).pageFreeList = s.pageFreeList := by
        rw [KState.setFreeList_pageFreeList, hl, hz]
        rfl
      exact ⟨_, hlist, rfl, rfl, Or.inr ⟨_, _, h⟩⟩

end FollowsNull

theorem nextFreeOf_null {e : Entry} (hw : s.walk 0#32 = some e) :
    nextFreeOf none s = .ret (pageStatusAt s.pagesBase (s.mem e.frame 0)) s false := by
  have hload : loadUser 0#32 s = .ret (s.mem e.frame 0) s true := by
    rw [loadUser, hw]
    rfl
  have hrest : (loadUser 0#32 >>= fun w => Prog.read (fun s : KState => pageStatusAt s.pagesBase w)) s =
      .ret (pageStatusAt s.pagesBase (s.mem e.frame 0)) s true := by
    rw [bind_clean hload]
    rfl
  unfold nextFreeOf
  change Prog.bind _ _ s = _
  unfold Prog.bind Prog.check
  simp only [hrest, Bool.and_true]

theorem firstFreePage_empty (hl : s.pageFreeList = none) : FollowsNull s firstFreePage := by
  have hread : Prog.read (·.pageFreeList) s = .ret none s true := by rw [Prog.read, hl]
  unfold FollowsNull
  cases hw : s.walk 0#32 with
  | none =>
    have hcheck : Returns false (Prog.check (fun _ : KState => false)) s () s := returns_check.mpr ⟨rfl, by simp⟩
    have hload : Faults (loadUser 0#32) s s := by rw [Faults, loadUser, hw]
    exact Faults.tail (returns_ret hread) (Faults.head (Faults.tail hcheck hload.head))
  | some e =>
    exact errorLoop_tail hread (errorLoop_tail (nextFreeOf_null hw) (errorLoop_tail rfl rfl))

theorem pageAlloc_empty (hl : s.pageFreeList = none) (flags : Word) : FollowsNull s (pageAlloc flags) :=
    (firstFreePage_empty hl).head

theorem getPageTable_empty (hl : s.pageFreeList = none) {pgdir va : Word}
    (hn : isPagePresent (s.wordAt (entryPtr pgdir (pdx va))) = false) :
    FollowsNull s (getPageTable pgdir va true) := by
  have hload : Returns false (load (entryPtr pgdir (pdx va))) s (s.wordAt (entryPtr pgdir (pdx va))) s :=
    returns_load.mpr ⟨rfl, rfl, by simp⟩
  apply FollowsNull.tail hload
  simp only [hn, Bool.not_false, Bool.not_true, Bool.and_false, Bool.false_eq_true, if_false, if_true]
  exact (pageAlloc_empty hl _).head

theorem insertPage_empty (hl : s.pageFreeList = none) {pgdir va : Word}
    (hn : isPagePresent (s.wordAt (entryPtr pgdir (pdx va))) = false) (ps : ℕ) (perms : Word) :
    FollowsNull s (insertPage pgdir ps va perms) :=
  (getPageTable_empty hl hn).head

theorem outOfMemory_faults (hl : s.pageFreeList = none) :
    (∀ flags, FollowsNull s (pageAlloc flags) ∧ ¬ GoodAccesses s (pageAlloc flags)) ∧
      ∀ pgdir ps va perms, isPagePresent (s.wordAt (entryPtr pgdir (pdx va))) = false →
        FollowsNull s (insertPage pgdir ps va perms) ∧
          (FailsCleanly (· = -1) s (insertPage pgdir ps va perms) ↔ ∃ e, s.walk 0#32 = some e ∧
          s.mem e.frame 0 = 0#32) := by
  refine ⟨fun flags => ?_, fun pgdir ps va perms hn => ?_⟩
  · have hf := pageAlloc_empty hl flags
    exact ⟨hf, hf.not_good⟩
  · have hf := insertPage_empty hl hn ps perms
    exact ⟨hf, hf.failsCleanly_iff hl⟩

def freshState : KState where
  mem := fun _ _ => 0#32
  pages := fun _ => ⟨none, 0#32⟩
  pageFreeList := none
  pagesCount := 8
  pagesBasememCount := 4
  kernPageDirectory := 0xF0004000#32
  pagesBase := 0#32
  bootNextFree := 0xF0006000#32
  endBss := 0xF0000000#32
  nvram := fun _ => 0#8
  taskPgdir := fun _ => 0#32
  cr0 := 0#32
  cr3 := none
  tlb := .empty
  refill := fun _ _ => false
  clock := 0

theorem outOfMemory_faults_fresh :
    pageAlloc 0#32 freshState = .errorLoop "Not enought memory\n" freshState false ∧
      Faults (insertPage 0xF0004000#32 2 pageSize pteW) { freshState with cr3 := some 4 }
        { freshState with cr3 := some 4 } ∧
      ¬ FailsCleanly (· = -1) { freshState with cr3 := some 4 } (insertPage 0xF0004000#32 2 pageSize pteW) := by
  have h := (@outOfMemory_faults freshState rfl).1 0#32
  have h' := (@outOfMemory_faults { freshState with cr3 := some 4 } rfl).2 0xF0004000#32 2 pageSize pteW (by decide)
  refine ⟨h.1, h'.1, h'.2.not.mpr ?_⟩
  rintro ⟨_, hw, _⟩
  cases hw

theorem not_outOfMemory_clean : ¬ ∀ s : KState, s.pageFreeList = none →
    (∀ flags, GoodAccesses s (pageAlloc flags)) ∧
      ∀ pgdir ps va perms, isPagePresent (s.wordAt (entryPtr pgdir (pdx va))) = false →
        FailsCleanly (· = -1) s (insertPage pgdir ps va perms) := by
  intro h
  exact (pageAlloc_empty rfl 0#32).not_good ((h freshState rfl).1 0#32)

structure InitialFreeList (s s' : KState) (used : ℕ) (L : List ℕ) : Prop where
  chain : s'.FreeList L
  once : L.Nodup
  members : ∀ i, i ∈ L ↔ (1 ≤ i ∧ i < s.pagesBasememCount) ∨ (used ≤ i ∧ i < s.pagesCount)
  free : ∀ i ∈ L, (s'.pages i).refs = 0#32
  reserved : ∀ i < s.pagesCount, i ∉ L → s'.pages i = ⟨none, 1#32⟩
  outside : ∀ i, s.pagesCount ≤ i → s'.pages i = s.pages i
  rest : s' = ((s.setPages s'.pages).setFreeList s'.pageFreeList).setBootNext s.bootFree

theorem initPages_pages (hr : Returns st initPages s () s') (q : ℕ) :
    (InitUsed s.pagesBasememCount (kernFrame s.bootFree) q → s'.pages q = ⟨none, 1#32⟩) ∧
      (q ≠ 0 → s.pagesBasememCount ≤ q → kernFrame s.bootFree ≤ q → s.pagesCount ≤ q → s'.pages q = s.pages q) := by
  obtain rfl := returns_initPages.mp hr
  rw [usedCount_eq]
  simp only [KState.freeRange, KState.usedRange, KState.setPages_pages, KState.setBootNext_pages,
    KState.setFreeList_pages]
  constructor
  · intro hq
    rw [InitUsed] at hq
    rw [if_neg (by omega)]
    split
    · rfl
    · rw [if_neg (by omega)]
      obtain rfl : q = 0 := by omega
      simp
  · intro h0 hb hu hc
    rw [if_neg (by omega), if_neg (by omega), if_neg (by omega), Function.update_of_ne h0, Function.update_of_ne h0]

theorem initPages_builds {frontier : Word} {t : KState} (hf : Returns st (bootAlloc 0#32) s frontier t)
    (hl : s.pageFreeList = none) (h₁ : 1 ≤ s.pagesBasememCount)
    (hb : s.pagesBasememCount ≤ (paddr frontier / pageSize).toNat)
    (hu : (paddr frontier / pageSize).toNat ≤ s.pagesCount) :
    ∃ s', Returns true initPages s () s' ∧ ∃ L, InitialFreeList s s' (paddr frontier / pageSize).toNat L := by
  obtain ⟨rfl, _, _⟩ := returns_bootAlloc.mp hf
  have hused : (paddr s.bootFree / pageSize).toNat = kernFrame s.bootFree := usedCount_eq s.bootFree
  rw [hused] at hb hu ⊢
  have hr := (@returns_initPages true s _ ()).mpr rfl
  obtain ⟨hchain, hrefs, _⟩ := initPages_list hl hr
  have hmem : ∀ i, i ∈ initialList s.pagesBasememCount (kernFrame s.bootFree) s.pagesCount ↔
      (1 ≤ i ∧ i < s.pagesBasememCount) ∨ (kernFrame s.bootFree ≤ i ∧ i < s.pagesCount) := by
    intro i
    rw [mem_initialList]
    omega
  refine ⟨_, hr, _, ⟨hchain, hchain.nodup, hmem, hrefs, fun i hi hn => ?_, fun i hi => ?_, ?_⟩⟩
  · rw [hmem] at hn
    apply (initPages_pages hr i).1
    rw [InitUsed]
    omega
  · exact (initPages_pages hr i).2 (by omega) (by omega) (by omega) hi
  · simp only [KState.freeRange, KState.usedRange, KState.setPages, KState.setFreeList, KState.setBootNext]

theorem initPages_builds_fresh : ∃ s', Returns true initPages freshState () s' ∧
    ∃ L, InitialFreeList freshState s' 6 L := by
  have hf : Returns true (bootAlloc 0#32) freshState 0xF0006000#32 freshState :=
    returns_bootAlloc.mpr ⟨by decide, by simp, rfl⟩
  exact initPages_builds hf rfl (by decide) (by decide) (by decide)

inductive AllocCall
  | pageAlloc (ps : ℕ)
  | freePage (ps : ℕ)

inductive AllocStep (st : Bool) (ok : KState → ℕ → Prop) : KState → AllocCall → KState → Prop
  | pageAlloc {s s' : KState} (flags : Word) (ps : ℕ) (hr : Returns st (pageAlloc flags) s ps s') :
      AllocStep st ok s (.pageAlloc ps) s'
  | freePage {s s' : KState} (ps : ℕ) (ho : ok s ps) (hr : Returns st (freePage ps) s () s') :
      AllocStep st ok s (.freePage ps) s'

/-- The page is the last one of the free list, whose `next_free` is `NULL`. -/
def KState.LastFree (s : KState) (ps : ℕ) : Prop := s.OnFreeList ps ∧ (s.pages ps).nextFree = none

structure ListInv (s : KState) (L : List ℕ) : Prop where
  chain : s.FreeList L
  refs : ∀ q ∈ L, (s.pages q).refs = 0#32

theorem returns_pageAlloc_list {flags : Word} (hr : Returns st (pageAlloc flags) s ps s') :
    s.pageFreeList = some ps ∧ s'.pages = (s.popFree ps).pages ∧ s'.pageFreeList = (s.popFree ps).pageFreeList := by
  by_cases hf : flags &&& pageZeroFilled = pageZeroFilled
  · obtain ⟨hl, rfl, _⟩ := (returns_pageAlloc_zero hf).mp hr
    exact ⟨hl, rfl, rfl⟩
  · obtain ⟨hl, rfl⟩ := (returns_pageAlloc_plain hf).mp hr
    exact ⟨hl, rfl, rfl⟩

namespace ListInv

theorem pageAlloc (h : ListInv s L) {flags : Word} (hr : Returns st (Cezos.pageAlloc flags) s ps s') :
    ∃ L', L = ps :: L' ∧ ps ∉ L' ∧ ListInv s' L' := by
  obtain ⟨hl, hp, hf⟩ := returns_pageAlloc_list hr
  have hc := h.chain
  rw [KState.FreeList, hl] at hc
  obtain ⟨L', rfl, _⟩ := Chain.some_iff.mp hc
  have hpop : (s.popFree ps).FreeList L' := KState.FreeList.popFree h.chain
  refine ⟨L', rfl, (List.nodup_cons.mp (Chain.nodup h.chain)).1, ?_, fun q hq => ?_⟩
  · rw [KState.FreeList, hp, hf]
    exact hpop
  · rw [hp, KState.popFree_refs]
    exact h.refs q (List.mem_cons_of_mem _ hq)

theorem freePage (h : ListInv s L) (hn : ps ∉ L) (hr : Returns st (Cezos.freePage ps) s () s') :
    ListInv s' (ps :: L) := by
  obtain ⟨_, _, rfl⟩ := returns_freePage.mp hr
  refine ⟨KState.FreeList.pushFree h.chain hn, fun q hq => ?_⟩
  rw [KState.pushFree_refs]
  split
  · rfl
  · next hne => exact h.refs q ((List.mem_cons.mp hq).resolve_left hne)

theorem not_mem (h : ListInv s L) (hl : ¬ s.LastFree ps) (hn : (s.pages ps).nextFree = none) : ps ∉ L :=
  fun hm => hl ⟨(onFreeList_iff h.chain).mpr hm, hn⟩

theorem step (h : ListInv s L) {c : AllocCall} (hc : AllocStep st (fun s ps => ¬ s.LastFree ps) s c s') :
    ∃ L', ListInv s' L' := by
  cases hc with
  | pageAlloc flags ps hr =>
    obtain ⟨L', _, _, h'⟩ := h.pageAlloc hr
    exact ⟨L', h'⟩
  | freePage ps ho hr =>
    have hn := (returns_freePage.mp hr).2.1
    exact ⟨_, h.freePage (h.not_mem ho hn) hr⟩

theorem run (h : ListInv s L) {cs : List AllocCall}
    (hr : Trace (AllocStep st (fun s ps => ¬ s.LastFree ps)) s cs s') :
    ∃ L', ListInv s' L' := by
  have hstep : ∀ s c s', c ∈ cs → (∃ L, ListInv s L) → AllocStep st (fun s ps => ¬ s.LastFree ps) s c s' →
      ∃ L, ListInv s' L := by
    rintro s c s' _ ⟨L, h⟩ hc
    exact h.step hc
  exact hr.invariant hstep ⟨L, h⟩

theorem stays_off (h : ListInv s L) (hp : p ∉ L) {cs : List AllocCall}
    (hr : Trace (AllocStep st (fun s ps => ¬ s.LastFree ps)) s cs s') (hf : .freePage p ∉ cs) :
    ∃ L', ListInv s' L' ∧ p ∉ L' := by
  refine hr.invariant (I := fun s => ∃ L, ListInv s L ∧ p ∉ L) ?_ ⟨L, h, hp⟩
  rintro s c s' hc ⟨L, h, hp⟩ hstep
  cases hstep with
  | pageAlloc flags ps hr =>
    obtain ⟨L', rfl, _, h'⟩ := h.pageAlloc hr
    exact ⟨L', h', fun hm => hp (List.mem_cons_of_mem _ hm)⟩
  | freePage ps ho hr =>
    have hn := (returns_freePage.mp hr).2.1
    refine ⟨_, h.freePage (h.not_mem ho hn) hr, fun hm => ?_⟩
    rcases List.mem_cons.mp hm with rfl | hm
    · exact hf hc
    · exact hp hm

theorem freed_between (h : ListInv s L) {pre mid post : List AllocCall}
    (hr : Trace (AllocStep st (fun s ps => ¬ s.LastFree ps)) s
    (pre ++ .pageAlloc p :: (mid ++ .pageAlloc p :: post)) s') :
    .freePage p ∈ mid := by
  by_contra hmid
  obtain ⟨s₁, h₁, hr₁⟩ := Trace.append_iff.mp hr
  obtain ⟨s₂, h₂, hr₂⟩ := Trace.cons_iff.mp hr₁
  obtain ⟨s₃, h₃, hr₃⟩ := Trace.append_iff.mp hr₂
  obtain ⟨s₄, h₄, _⟩ := Trace.cons_iff.mp hr₃
  obtain ⟨L₁, hL₁⟩ := h.run h₁
  cases h₂ with
  | pageAlloc flags ps hra =>
    obtain ⟨L₂, rfl, hn, hL₂⟩ := hL₁.pageAlloc hra
    obtain ⟨L₃, hL₃, hp⟩ := hL₂.stays_off hn h₃ hmid
    cases h₄ with
    | pageAlloc flags ps hra =>
      obtain ⟨L₄, rfl, _⟩ := hL₃.pageAlloc hra
      exact hp List.mem_cons_self

end ListInv

theorem initPages_listInv (hl : s₀.pageFreeList = none) (hi : Returns st initPages s₀ () s) : ∃ L, ListInv s L := by
  obtain ⟨hc, hr, _⟩ := initPages_list hl hi
  exact ⟨_, hc, hr⟩

theorem lastFree_iff (h : ListInv s L) (hp : s.OnFreeList ps) :
    s.LastFree ps ↔ ¬ Loops (freePage ps) s "Page still in use\n" s := by
  have hz := h.refs ps ((onFreeList_iff h.chain).mp hp)
  rw [loops_freePage, KState.LastFree]
  simp [hp, hz]

theorem returns_freeLast (h : ListInv s L) (hp : s.LastFree ps) :
    ∃ s', Returns st (freePage ps) s () s' ∧ ¬ ∃ L', s'.FreeList L' := by
  have hm := (onFreeList_iff h.chain).mp hp.1
  refine ⟨_, returns_freePage.mpr ⟨h.refs ps hm, hp.2, rfl⟩, ?_⟩
  rintro ⟨L', hL'⟩
  have hhead : (s.pushFree ps).pageFreeList = some ps := rfl
  have hnd := Chain.nodup hL'
  rw [KState.FreeList, hhead] at hL'
  obtain ⟨l, rfl, ht⟩ := Chain.some_iff.mp hL'
  rw [KState.pushFree_nextFree, if_pos rfl] at ht
  have hagree : ∀ q, q ≠ ps → ((s.pushFree ps).pages q).nextFree = (s.pages q).nextFree := by
    intro q hq
    rw [KState.pushFree_nextFree, if_neg hq]
  exact (List.nodup_cons.mp hnd).1 (Chain.reaches h.chain hm hagree ht)

theorem doubleFree_caught {cs : List AllocCall} (hl : s₀.pageFreeList = none) (hi : Returns st initPages s₀ () s)
    (hrun : Trace (AllocStep st (fun s ps => ¬ s.LastFree ps)) s cs x) :
    (∃ L, x.FreeList L) ∧
    (∀ ps, x.OnFreeList ps → (Loops (freePage ps) x "Page still in use\n" x ↔ ¬ x.LastFree ps)) ∧
    (∀ ps, x.LastFree ps → ∃ y, Returns st (freePage ps) x () y ∧ ¬ ∃ L, y.FreeList L) ∧
    ∀ p pre mid post, cs = pre ++ .pageAlloc p :: (mid ++ .pageAlloc p :: post) → .freePage p ∈ mid := by
  obtain ⟨L₀, h₀⟩ := initPages_listInv hl hi
  obtain ⟨L, h⟩ := h₀.run hrun
  refine ⟨⟨L, h.chain⟩, fun ps hp => ?_, fun ps hp => returns_freeLast h hp, ?_⟩
  · rw [lastFree_iff h hp, not_not]
  · rintro p pre mid post rfl
    exact h₀.freed_between hrun

def freshPages : KState := (initPages freshState).state

theorem freshPages_returns : Returns true initPages freshState () freshPages := Returns.of_eval (by decide +kernel)

theorem freshPages_list : freshPages.FreeList [7, 6, 3, 2, 1] :=
  ⟨by decide +kernel, by decide +kernel, by decide +kernel, by decide +kernel, by decide +kernel,
    Chain.nil_iff.mpr (by decide +kernel)⟩

theorem doubleFree_caught_fresh :
    ∃ x, Trace (AllocStep true (fun s ps => ¬ s.LastFree ps)) freshPages [.pageAlloc 7] x ∧
    Loops (freePage 3) x "Page still in use\n" x := by
  have hstep : AllocStep true (fun s ps => ¬ s.LastFree ps) freshPages (.pageAlloc 7) (freshPages.popFree 7) :=
    .pageAlloc 0#32 7 ((returns_pageAlloc_plain (by decide)).mpr ⟨by decide +kernel, rfl⟩)
  have hlist : (freshPages.popFree 7).FreeList [6, 3, 2, 1] := KState.FreeList.popFree freshPages_list
  have h := doubleFree_caught rfl freshPages_returns (Trace.single hstep)
  refine ⟨_, Trace.single hstep, (h.2.1 3 ((onFreeList_iff hlist).mpr (by decide))).mpr ?_⟩
  rintro ⟨_, hn⟩
  exact absurd hn (by decide +kernel)

theorem not_doubleFree_caught : ¬ ∀ (s₀ s x : KState) (cs : List AllocCall), s₀.pageFreeList = none →
    Returns true initPages s₀ () s → Trace (AllocStep true (fun _ _ => True)) s cs x →
    (∃ L, x.FreeList L) ∧ (∀ ps, x.OnFreeList ps → Loops (freePage ps) x "Page still in use\n" x) ∧
      ∀ p pre mid post, cs = pre ++ .pageAlloc p :: (mid ++ .pageAlloc p :: post) → .freePage p ∈ mid := by
  intro h
  have hloop := (h _ _ _ _ rfl freshPages_returns (.nil freshPages)).2.1 1
    ((onFreeList_iff freshPages_list).mpr (by decide))
  rw [loops_freePage] at hloop
  exact absurd hloop.1 (by decide +kernel)

end Cezos
