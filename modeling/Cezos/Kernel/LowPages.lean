import Cezos.Kernel.AllocRuns
import Cezos.Kernel.SetupPages

namespace Cezos

open Lib

variable {st : Bool} {s s' : KState} {L A B : List ℕ} {q : ℕ}

def lowPage (q : ℕ) : Bool := decide (page2pa q < 0x400000#32)

theorem lowPage_eq (q : ℕ) : lowPage q = !isHigh 1 q := by
  rw [lowPage, isHigh, pdx_eq, ← decide_not, decide_eq_decide, BitVec.lt_def]
  simp only [BitVec.toNat_ofNat]
  omega

theorem lowFirst_eq (L : List ℕ) : lowFirst L = L.filter lowPage ++ L.filter (fun q => !lowPage q) := by
  have hlow : lowPage = fun q => !isHigh 1 q := funext lowPage_eq
  simp only [lowFirst, hlow, Bool.not_not]

def PageAllocStep (st : Bool) (s : KState) (e : Word × ℕ) (s' : KState) : Prop := Returns st (pageAlloc e.1) s e.2 s'

def Fillable (s : KState) (q : ℕ) : Prop := q < s.pagesCount ∧ q < 1024 ∧ s.inKernelImage q = false

theorem pageAlloc_head (flags : Word) (h : s.FreeList (q :: L)) (hst : st = true → s.cr3 = none ∧ Fillable s q) :
    ∃ s', Returns st (pageAlloc flags) s q s' ∧ s'.FreeList L ∧ SameSetup s s' := by
  obtain ⟨hl, _⟩ := Chain.cons_iff.mp h
  have hpop : (s.popFree q).FreeList L := KState.FreeList.popFree h
  by_cases hf : flags &&& pageZeroFilled = pageZeroFilled
  · refine ⟨_, (returns_pageAlloc_zero hf).mpr ⟨hl, rfl, fun hs => ?_⟩, hpop, ⟨rfl, rfl, rfl, rfl, rfl, rfl, rfl⟩⟩
    obtain ⟨hc, hq, hlow, himage⟩ := hst hs
    have hk : kernFrame (s.kva q) = q := kernFrame_kva hq (by omega)
    rw [reaches_entry hc, hk]
    exact ⟨himage, decide_eq_true hlow⟩
  · exact ⟨_, (returns_pageAlloc_plain hf).mpr ⟨hl, rfl⟩, hpop, ⟨rfl, rfl, rfl, rfl, rfl, rfl, rfl⟩⟩

theorem allocRun_prefix {es : List (Word × ℕ)} (hr : Trace (PageAllocStep st) s es s') (h : s.FreeList L) :
    ∃ L', L = es.map Prod.snd ++ L' := by
  induction hr generalizing L with
  | nil s => exact ⟨L, rfl⟩
  | @cons s s₁ s' e es head tail ih =>
    obtain ⟨hl, hp, hf⟩ := returns_pageAlloc_list head
    have hc := h
    rw [KState.FreeList, hl] at hc
    obtain ⟨R, rfl, _⟩ := Chain.some_iff.mp hc
    have hpop : (s.popFree e.2).FreeList R := KState.FreeList.popFree h
    have h₁ : s₁.FreeList R := by
      rw [KState.FreeList, hp, hf]
      exact hpop
    obtain ⟨L', rfl⟩ := ih h₁
    exact ⟨L', rfl⟩

theorem allocRun_exists (fs : List Word) (h : s.FreeList (A ++ B)) (hlen : fs.length ≤ A.length)
    (hst : st = true → s.cr3 = none ∧ ∀ q ∈ A, Fillable s q) :
    ∃ es x, es.map Prod.fst = fs ∧ Trace (PageAllocStep st) s es x := by
  induction fs generalizing s A with
  | nil => exact ⟨[], s, rfl, .nil s⟩
  | cons f fs ih =>
    cases A with
    | nil => exact absurd hlen (by simp)
    | cons q A =>
      obtain ⟨s₁, hr, h₁, hsame⟩ := pageAlloc_head f h (fun hs => ⟨(hst hs).1, (hst hs).2 q List.mem_cons_self⟩)
      have hst₁ : st = true → s₁.cr3 = none ∧ ∀ q ∈ A, Fillable s₁ q := by
        intro hs
        obtain ⟨hc, hfill⟩ := hst hs
        refine ⟨hsame.loaded.trans hc, fun p hp => ?_⟩
        have hp := hfill p (List.mem_cons_of_mem _ hp)
        rwa [Fillable, KState.inKernelImage, hsame.count, hsame.next]
      obtain ⟨es, x, rfl, htail⟩ := ih h₁ (by simpa using hlen) hst₁
      exact ⟨(f, q) :: es, x, rfl, .cons hr htail⟩

/-- The list `L` is split into the pages below 4 MB and the others, each in the order they had. -/
structure SplitsLow (st : Bool) (s : KState) (L : List ℕ) (s' : KState) : Prop where
  list : s'.FreeList (L.filter lowPage ++ L.filter (fun q => !lowPage q))
  refs : ∀ q, (s'.pages q).refs = (s.pages q).refs
  contents : ∀ f, s'.mem f ≠ s.mem f → f ∈ L ∧ lowPage f = true
  setup : SameSetup s s'
  calls : ∀ fs : List Word, fs.length ≤ (L.filter lowPage).length →
    ∃ es x, es.map Prod.fst = fs ∧ Trace (PageAllocStep st) s' es x
  low : ∀ es x, Trace (PageAllocStep st) s' es x → es.length ≤ (L.filter lowPage).length →
    ∀ e ∈ es, lowPage e.2 = true

theorem splitsLow_calls {es : List (Word × ℕ)} {x : KState} (h : s.FreeList (A ++ B))
    (hr : Trace (PageAllocStep st) s es x)
    (hlen : es.length ≤ A.length) : ∀ e ∈ es, e.2 ∈ A := by
  obtain ⟨L', hL⟩ := allocRun_prefix hr h
  intro e he
  have htake : es.map Prod.snd = A.take es.length := by
    have h₁ := congrArg (List.take es.length) hL
    rw [List.take_append_of_le_length hlen, List.take_append_of_le_length (by simp)] at h₁
    rw [h₁, ← List.length_map (f := Prod.snd), List.take_length]
  have hm : e.2 ∈ es.map Prod.snd := List.mem_map_of_mem he
  rw [htake] at hm
  exact List.mem_of_mem_take hm

theorem length_le_of_lt {n : ℕ} (hn : L.Nodup) (hL : ∀ q ∈ L, q < n) : L.length ≤ n := by
  have hsub : L ⊆ List.range n := fun q hq => List.mem_range.mpr (hL q hq)
  have hle := (List.subperm_of_subset hn hsub).length_le
  rwa [List.length_range] at hle

theorem lowPage_lt (h : q < 1048576) : lowPage q = true ↔ q < 1024 := by
  rw [lowPage_eq, Bool.not_eq_true', isHigh_one h]

theorem checkPageList_splits (h : s.FreeList L) (hL : ∀ q ∈ L, q < s.pagesCount) (hc : s.pagesCount ≤ 1048576)
    (hst : st = true → s.cr3 = none ∧ ∀ q ∈ L, lowPage q = true → s.inKernelImage q = false) :
    ∃ s', Returns st (checkPageList true) s () s' ∧ SplitsLow st s L s' := by
  have hlen : L.length < listFuel := by
    have hle := length_le_of_lt h.nodup hL
    rw [listFuel]
    omega
  obtain ⟨s₁, honly, hlist, hcheck⟩ := returns_checkPageList h hlen
  have hkva : ∀ q ∈ L, kernFrame (s₁.kva q) = q := by
    intro q hq
    have hlt := hL q hq
    exact kernFrame_kva (by rw [honly.setup.count]; exact hlt) (by omega)
  have hpoison : st = true → ∀ q ∈ lowFirst L, s₁.poisonable 1 q := by
    intro hs q hq hpdx
    rw [mem_lowFirst] at hq
    have hlt := hL q hq
    have hlow := (lowPage_iff (by omega)).mp hpdx
    rw [hkva q hq, KState.inKernelImage, honly.setup.next]
    exact ⟨(hst hs).2 q hq ((lowPage_lt (by omega)).mpr hlow), hlow⟩
  have hr : Returns st (checkPageList true) s () (s₁.poisonAll 1 (lowFirst L)) :=
    (hcheck (fun hs => (hst hs).1)).mpr ⟨rfl, hpoison⟩
  have hall := poisonAll_only (s := s₁) 1 (lowFirst L)
  have hsetup := honly.setup.trans hall.setup
  have hlist' : (s₁.poisonAll 1 (lowFirst L)).FreeList (L.filter lowPage ++ L.filter (fun q => !lowPage q)) := by
    rw [← lowFirst_eq, KState.FreeList, hall.list, hall.pages]
    exact hlist
  have hfill : st = true → (s₁.poisonAll 1 (lowFirst L)).cr3 = none ∧
      ∀ q ∈ L.filter lowPage, Fillable (s₁.poisonAll 1 (lowFirst L)) q := by
    intro hs
    obtain ⟨hcr, himage⟩ := hst hs
    refine ⟨hsetup.loaded.trans hcr, fun q hq => ?_⟩
    obtain ⟨hm, hlow⟩ := List.mem_filter.mp hq
    have hlt := hL q hm
    rw [Fillable, KState.inKernelImage, hsetup.count, hsetup.next]
    exact ⟨hlt, (lowPage_lt (by omega)).mp hlow, himage q hm hlow⟩
  refine ⟨_, hr, hlist', fun q => ?_, fun f hf => ?_, hsetup, fun fs hfs => allocRun_exists fs hlist' hfs hfill,
    fun es x hx hes e he => ?_⟩
  · rw [hall.pages, honly.refs]
  · by_contra hn
    apply hf
    rw [poisonAll_mem, honly.mem]
    rintro q hq hpdx rfl
    rw [mem_lowFirst] at hq
    have hlt := hL q hq
    rw [hkva q hq] at hn
    exact hn ⟨hq, (lowPage_lt (by omega)).mpr ((lowPage_iff (by omega)).mp hpdx)⟩
  · exact (List.mem_filter.mp (splitsLow_calls hlist' hx hes e he)).2

def mixedPages : KState := { freshState with
  pagesCount := 1032
  pageFreeList := some 1030
  pages := fun q =>
    ⟨if q = 1030 then some 7 else if q = 7 then some 1027 else if q = 1027 then some 3 else none, 0#32⟩ }

theorem mixedPages_list : mixedPages.FreeList [1030, 7, 1027, 3] :=
  ⟨by decide +kernel, by decide +kernel, by decide +kernel, by decide +kernel, Chain.nil_iff.mpr (by decide +kernel)⟩

theorem checkPageList_splits_fresh : ∃ s', Returns true (checkPageList true) mixedPages () s' ∧
    SplitsLow true mixedPages [1030, 7, 1027, 3] s' ∧ s'.FreeList [7, 3, 1030, 1027] := by
  obtain ⟨s', hr, h⟩ := checkPageList_splits mixedPages_list (by decide +kernel) (by decide +kernel)
    (fun _ => ⟨by decide +kernel, by decide +kernel⟩)
  exact ⟨s', hr, h, h.list⟩

end Cezos
