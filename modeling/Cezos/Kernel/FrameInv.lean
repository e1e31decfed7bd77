import Cezos.Kernel.TableSpec
import Cezos.Lib.Chain
import Mathlib.Data.Finset.Interval
import Mathlib.Order.Interval.Finset.Nat

namespace Cezos

open Lib

def pteTarget (w : Word) : Option ℕ := if isPagePresent w then some (pteFrame w) else none

def lowDir : Finset ℕ := Finset.range 955

def tableWords : Finset ℕ := Finset.range 1024

theorem pdx_mem_lowDir {va : Word} : pdx va ∈ lowDir ↔ va < uTop := by
  rw [lt_uTop_iff, lowDir, Finset.mem_range]

theorem ptx_mem_tableWords (va : Word) : ptx va ∈ tableWords := by
  simpa [tableWords] using ptx_lt va

theorem pteTarget_present {w : Word} (h : isPagePresent w = true) : pteTarget w = some (pteFrame w) := by
  simp [pteTarget, h]

theorem pteTarget_absent {w : Word} (h : isPagePresent w = false) : pteTarget w = none := by
  simp [pteTarget, h]

theorem pteTarget_some {w : Word} {q : ℕ} :
    pteTarget w = some q ↔ isPagePresent w = true ∧ pteFrame w = q := by
  cases h : isPagePresent w <;> simp [pteTarget, h]

namespace KState

variable (s : KState) (D : Finset ℕ) (q : ℕ)

def IsTable : Prop := Radix.IsTable pteTarget s.mem D lowDir q

def IsMapped : Prop := Radix.IsLeaf pteTarget s.mem D lowDir tableWords q

def pdeRefs : ℕ := Radix.tableRefs pteTarget s.mem D lowDir q

def pteRefs : ℕ := Radix.leafRefs pteTarget s.mem D lowDir tableWords q

def FreeList (L : List ℕ) : Prop := Chain (fun p => (s.pages p).nextFree) s.pageFreeList L

def OnFreeList : Prop := ∃ L, s.FreeList L ∧ q ∈ L

end KState

theorem onFreeList_iff {s : KState} {L : List ℕ} (h : s.FreeList L) {q : ℕ} : s.OnFreeList q ↔ q ∈ L := by
  constructor
  · rintro ⟨L', h', hq⟩
    rwa [Chain.unique h h']
  · exact fun hq => ⟨L, h, hq⟩

section FreeList

variable {s : KState} {L : List ℕ} {q : ℕ}

theorem KState.FreeList.popFree (h : s.FreeList (q :: L)) : (s.popFree q).FreeList L := by
  obtain ⟨hq, hc⟩ := Chain.cons_iff.mp h
  have hn := (List.nodup_cons.mp (Chain.nodup h)).1
  refine hc.congr (fun p hp => ?_)
  rw [KState.popFree_nextFree, if_neg (fun he : p = q => hn (he ▸ hp))]

theorem KState.FreeList.pushFree (h : s.FreeList L) (hq : q ∉ L) : (s.pushFree q).FreeList (q :: L) := by
  refine (Chain.push h hq).congr (fun p _ => ?_)
  rw [KState.pushFree_nextFree, Function.update_apply]

theorem KState.FreeList.setRefs (h : s.FreeList L) {v : Word} : (s.setRefs q v).FreeList L :=
  Chain.congr h (fun p _ => KState.setRefs_nextFree s q p v)

theorem KState.FreeList.setMem (h : s.FreeList L) {mem : ℕ → ℕ → Word} : (s.setMem mem).FreeList L := h

theorem KState.FreeList.newTable {pgdir va : Word} (h : s.FreeList (q :: L)) : (s.newTable pgdir va q).FreeList L :=
  h.popFree.setMem.setRefs.setMem

end FreeList

/-- The free list `L`, the counters and the tables of the directories `D` agree about the pages of
`pool`, but for the references `owed` that a call has counted and not yet made. -/
structure FrameInv (s : KState) (D pool : Finset ℕ) (L : List ℕ) (owed : ℕ → Word) : Prop where
  pool_lt : ∀ q ∈ pool, 0 < q ∧ q < s.pagesCount ∧ q < 1048576
  chain : s.FreeList L
  free_pool : ∀ q ∈ L, q ∈ pool
  off_list : ∀ q ∈ pool, q ∉ L → (s.pages q).nextFree = none
  apart : Radix.Apart pteTarget s.mem D lowDir
  dir_used : ∀ d ∈ D, d ∉ L
  table_used : ∀ t, s.IsTable D t → t ∈ pool ∧ t ∉ L
  leaf_used : ∀ q, s.IsMapped D q → q ∈ pool ∧ q ∉ L ∧ q ∉ D ∧ ¬ s.IsTable D q
  absent_zero : ∀ t, s.IsTable D t → ∀ j ∈ tableWords, isPagePresent (s.mem t j) = false →
    pteAddr (s.mem t j) = 0#32
  refs_eq : ∀ q ∈ pool, q ∉ D → (s.pages q).refs = BitVec.ofNat 32 (s.pdeRefs D q + s.pteRefs D q) + owed q

namespace FrameInv

variable {s s' : KState} {D pool : Finset ℕ} {L : List ℕ} {owed : ℕ → Word} {q d t i j : ℕ} {w : Word}

theorem congr (h : FrameInv s D pool L owed) (hm : s'.mem = s.mem) (hp : s'.pages = s.pages)
    (hl : s'.pageFreeList = s.pageFreeList) (hc : s'.pagesCount = s.pagesCount) :
    FrameInv s' D pool L owed := by
  obtain ⟨h₁, h₂, h₃, h₄, h₅, h₆, h₇, h₈, h₉, h₁₀⟩ := h
  constructor <;>
    simp only [KState.IsTable, KState.IsMapped, KState.pdeRefs, KState.pteRefs, KState.FreeList, hm, hp, hl, hc]
      at * <;>
    assumption

theorem dropTlb (h : FrameInv s D pool L owed) (va : Word) : FrameInv (s.dropTlb va) D pool L owed :=
  h.congr rfl rfl rfl rfl

theorem not_table (h : FrameInv s D pool L owed) (hq : q ∈ L) : ¬ s.IsTable D q :=
  fun ht => (h.table_used q ht).2 hq

theorem not_mapped (h : FrameInv s D pool L owed) (hq : q ∈ L) : ¬ s.IsMapped D q :=
  fun hm => (h.leaf_used q hm).2.1 hq

theorem not_dir (h : FrameInv s D pool L owed) (hq : q ∈ L) : q ∉ D := fun hd => h.dir_used q hd hq

theorem table_not_dir (h : FrameInv s D pool L owed) (ht : s.IsTable D t) : t ∉ D := by
  obtain ⟨d, hd, i, hi, hc⟩ := ht
  exact h.apart.not_dir d hd i hi t hc

theorem refs_free (h : FrameInv s D pool L owed) (hq : q ∈ L) (ho : owed q = 0#32) : (s.pages q).refs = 0#32 := by
  rw [h.refs_eq q (h.free_pool q hq) (h.not_dir hq), KState.pdeRefs, KState.pteRefs,
    Radix.tableRefs_eq_zero.mpr (h.not_table hq), Radix.leafRefs_eq_zero.mpr (h.not_mapped hq), ho]
  rfl

theorem refs_lt (h : FrameInv s D pool L owed) (q : ℕ) : s.pdeRefs D q + s.pteRefs D q < 2 ^ 31 := by
  have hp : pool.card ≤ 1048576 := by
    have hs : pool ⊆ Finset.range 1048576 := fun q hq => Finset.mem_range.mpr (h.pool_lt q hq).2.2
    simpa using Finset.card_le_card hs
  have ht := h.apart.tableRefs_le_one (q := q)
  have hl := h.apart.leafRefs_le (B := tableWords) (q := q) (T := pool) (fun t ht => (h.table_used t ht).1)
  have hm : pool.card * tableWords.card ≤ 1048576 * 1024 := Nat.mul_le_mul hp (by simp [tableWords])
  simp only [KState.pdeRefs, KState.pteRefs]
  omega

theorem toNat_refs (h : FrameInv s D pool L owed) (hq : q ∈ pool) (hd : q ∉ D) (ho : owed q = 0#32) :
    (s.pages q).refs.toNat = s.pdeRefs D q + s.pteRefs D q := by
  have hlt := h.refs_lt q
  rw [h.refs_eq q hq hd, ho, BitVec.add_zero, BitVec.toNat_ofNat]
  omega

theorem refs_eq_zero_iff (h : FrameInv s D pool L owed) (hq : q ∈ pool) (hd : q ∉ D) (ho : owed q = 0#32) :
    (s.pages q).refs = 0#32 ↔ ¬ s.IsTable D q ∧ ¬ s.IsMapped D q := by
  have hn := h.toNat_refs hq hd ho
  rw [KState.IsTable, KState.IsMapped, ← Radix.tableRefs_eq_zero, ← Radix.leafRefs_eq_zero,
    ← KState.pdeRefs, ← KState.pteRefs]
  constructor
  · intro hz
    rw [hz] at hn
    simp only [BitVec.toNat_ofNat, Nat.zero_mod] at hn
    omega
  · rintro ⟨h₁, h₂⟩
    apply BitVec.eq_of_toNat_eq
    rw [hn, h₁, h₂]
    rfl

theorem popFree (h : FrameInv s D pool L owed) (hl : s.pageFreeList = some q) :
    ∃ L', L = q :: L' ∧ q ∉ L' ∧ FrameInv (s.popFree q) D pool L' owed := by
  have hch := h.chain
  rw [KState.FreeList, hl] at hch
  obtain ⟨L', rfl, _⟩ := Chain.some_iff.mp hch
  refine ⟨L', rfl, (List.nodup_cons.mp hch.nodup).1, h.pool_lt, h.chain.popFree,
    fun p hp => h.free_pool p (List.mem_cons_of_mem _ hp), ?_, h.apart,
    fun d hd hm => h.dir_used d hd (List.mem_cons_of_mem _ hm), ?_, ?_, h.absent_zero, ?_⟩
  · intro p hp hm
    rw [KState.popFree_nextFree]
    split
    · rfl
    · next hpq => exact h.off_list p hp (by simp [hpq, hm])
  · intro t ht
    have := h.table_used t ht
    exact ⟨this.1, fun hm => this.2 (List.mem_cons_of_mem _ hm)⟩
  · intro p hp
    have := h.leaf_used p hp
    exact ⟨this.1, fun hm => this.2.1 (List.mem_cons_of_mem _ hm), this.2.2⟩
  · intro p hp hd
    rw [KState.popFree_refs]
    exact h.refs_eq p hp hd

theorem setRefs (h : FrameInv s D pool L owed) (q : ℕ) (v : Word) :
    FrameInv (s.setRefs q v) D pool L (Function.update owed q (owed q + (v - (s.pages q).refs))) := by
  refine ⟨h.pool_lt, h.chain.setRefs, h.free_pool, ?_, h.apart, h.dir_used,
    h.table_used, h.leaf_used, h.absent_zero, ?_⟩
  · intro p hp hm
    rw [KState.setRefs_nextFree]
    exact h.off_list p hp hm
  · intro p hp hd
    have he := h.refs_eq p hp hd
    by_cases hpq : p = q
    · subst hpq
      simp only [KState.setPages_pages, Function.update_self]
      change v = BitVec.ofNat 32 (s.pdeRefs D p + s.pteRefs D p) + _
      rw [← BitVec.add_assoc, ← he, BitVec.add_comm, BitVec.sub_add_cancel]
    · simp only [KState.setPages_pages, Function.update_of_ne hpq]
      exact he

theorem pushFree (h : FrameInv s D pool L owed) (hq : q ∈ pool) (hn : q ∉ L) (hd : q ∉ D)
    (ht : ¬ s.IsTable D q) (hm : ¬ s.IsMapped D q) (ho : owed q = 0#32) :
    FrameInv (s.pushFree q) D pool (q :: L) owed := by
  have hz : (s.pages q).refs = 0#32 := (h.refs_eq_zero_iff hq hd ho).mpr ⟨ht, hm⟩
  refine ⟨h.pool_lt, h.chain.pushFree hn, ?_, ?_, h.apart, ?_, ?_, ?_, h.absent_zero, ?_⟩
  · intro p hp
    rcases List.mem_cons.mp hp with rfl | hp
    · exact hq
    · exact h.free_pool p hp
  · intro p hp hm
    have hpq : p ≠ q := fun he => hm (by simp [he])
    rw [KState.pushFree_nextFree, if_neg hpq]
    exact h.off_list p hp (fun hm' => hm (List.mem_cons_of_mem _ hm'))
  · intro d hd' hm
    rcases List.mem_cons.mp hm with rfl | hm
    · exact hd hd'
    · exact h.dir_used d hd' hm
  · intro t ht'
    have := h.table_used t ht'
    refine ⟨this.1, fun hm => ?_⟩
    rcases List.mem_cons.mp hm with rfl | hm
    · exact ht ht'
    · exact this.2 hm
  · intro p hp
    have := h.leaf_used p hp
    refine ⟨this.1, fun hm' => ?_, this.2.2⟩
    rcases List.mem_cons.mp hm' with rfl | hm'
    · exact hm hp
    · exact this.2.1 hm'
  · intro p hp hd'
    rw [KState.pushFree_refs]
    split
    · next hpq =>
      subst hpq
      exact hz.symm.trans (h.refs_eq p hp hd')
    · exact h.refs_eq p hp hd'

theorem isTable_setFrame {g : ℕ → Word} (hd : q ∉ D) :
    (s.setFrame q g).IsTable D t ↔ s.IsTable D t := by
  rw [KState.IsTable, KState.IsTable, ← not_iff_not, ← Radix.tableRefs_eq_zero, ← Radix.tableRefs_eq_zero,
    KState.setMem_mem, Radix.tableRefs_setFrame hd]

theorem isMapped_setFrame {g : ℕ → Word} (hd : q ∉ D) (ht : ¬ s.IsTable D q) :
    (s.setFrame q g).IsMapped D t ↔ s.IsMapped D t := by
  rw [KState.IsMapped, KState.IsMapped, ← not_iff_not, ← Radix.leafRefs_eq_zero, ← Radix.leafRefs_eq_zero,
    KState.setMem_mem, Radix.leafRefs_setFrame hd ht]

theorem setFrame (h : FrameInv s D pool L owed) (hd : q ∉ D) (ht : ¬ s.IsTable D q) (g : ℕ → Word) :
    FrameInv (s.setFrame q g) D pool L owed := by
  refine ⟨h.pool_lt, h.chain, h.free_pool, h.off_list, h.apart.setFrame hd, h.dir_used, ?_, ?_, ?_, ?_⟩
  · intro t ht'
    exact h.table_used t ((isTable_setFrame hd).mp ht')
  · intro p hp
    rw [isTable_setFrame hd]
    exact h.leaf_used p ((isMapped_setFrame hd ht).mp hp)
  · intro t ht'
    have ht' := (isTable_setFrame hd).mp ht'
    rw [KState.setMem_mem, Radix.setFrame_ne _ _ (fun he : t = q => ht (he ▸ ht'))]
    exact h.absent_zero t ht'
  · intro p hp hd'
    rw [KState.pdeRefs, KState.pteRefs, KState.setMem_mem, Radix.tableRefs_setFrame hd,
      Radix.leafRefs_setFrame hd ht]
    exact h.refs_eq p hp hd'

theorem isTable_setWord (ht : t ∉ D) : (s.setWord t j w).IsTable D q ↔ s.IsTable D q := by
  rw [KState.IsTable, KState.IsTable, ← not_iff_not, ← Radix.tableRefs_eq_zero, ← Radix.tableRefs_eq_zero,
    KState.setMem_mem, Radix.tableRefs_setWord ht]

theorem setLeaf (h : FrameInv s D pool L owed) (hd : d ∈ D) (hi : i ∈ lowDir) (hj : j ∈ tableWords)
    (hc : pteTarget (s.mem d i) = some t)
    (hw : ∀ q, pteTarget w = some q → q ∈ pool ∧ q ∉ L ∧ q ∉ D ∧ ¬ s.IsTable D q)
    (hz : isPagePresent w = false → pteAddr w = 0#32) :
    FrameInv (s.setWord t j w) D pool L
      (fun q => owed q + (if pteTarget (s.mem t j) = some q then 1#32 else 0#32) -
        (if pteTarget w = some q then 1#32 else 0#32)) := by
  have ht : t ∉ D := h.apart.not_dir d hd i hi t hc
  refine ⟨h.pool_lt, h.chain, h.free_pool, h.off_list, h.apart.setWord ht, h.dir_used, ?_, ?_, ?_, ?_⟩
  · intro t' ht'
    exact h.table_used t' ((isTable_setWord ht).mp ht')
  · rintro p ⟨d', hd', i', hi', j', hj', hl⟩
    rw [isTable_setWord ht]
    rw [KState.setMem_mem, h.apart.leaf_setWord hd hi hc hd' hi'] at hl
    split at hl
    · exact hw p hl
    · exact h.leaf_used p ⟨d', hd', i', hi', j', hj', hl⟩
  · intro t' ht' j' hj'
    have ht' := (isTable_setWord ht).mp ht'
    rw [KState.setMem_mem]
    by_cases he : t' = t ∧ j' = j
    · obtain ⟨rfl, rfl⟩ := he
      rw [Radix.setWord_same]
      exact hz
    · rw [Radix.setWord, if_neg he]
      exact h.absent_zero t' ht' j' hj'
  · intro p hp hd'
    have hl := h.apart.leafRefs_setWord (w := w) (q := p) hd hi hj hc
    have hcast : BitVec.ofNat 32 ((s.setWord t j w).pteRefs D p) +
        (if pteTarget (s.mem t j) = some p then 1#32 else 0#32) =
        BitVec.ofNat 32 (s.pteRefs D p) + (if pteTarget w = some p then 1#32 else 0#32) := by
      have hc := congrArg (BitVec.ofNat 32) hl
      rw [BitVec.ofNat_add, BitVec.ofNat_add, Radix.child, apply_ite (BitVec.ofNat 32),
        apply_ite (BitVec.ofNat 32)] at hc
      exact hc
    have ht' : (s.setWord t j w).pdeRefs D p = s.pdeRefs D p := Radix.tableRefs_setWord ht
    have hr := h.refs_eq p hp hd'
    rw [BitVec.ofNat_add] at hr ⊢
    rw [ht']
    change (s.pages p).refs = _
    rw [hr]
    rw [← BitVec.eq_sub_iff_add_eq] at hcast
    rw [hcast]
    grind

theorem newTable (h : FrameInv s D pool L owed) (hd : d ∈ D) (hi : i ∈ lowDir)
    (ha : pteTarget (s.mem d i) = none) (hw : pteTarget w = some t) (ht : t ∈ pool) (hl : t ∉ L) (htd : t ∉ D)
    (htt : ¬ s.IsTable D t) (htm : ¬ s.IsMapped D t) (hz : ∀ j ∈ tableWords, s.mem t j = 0#32) :
    FrameInv (s.setWord d i w) D pool L (fun q => owed q - (if t = q then 1#32 else 0#32)) := by
  have hf : Radix.Fresh pteTarget s.mem D lowDir tableWords d i t w :=
    ⟨hd, hi, ha, hw, htd, htt, fun j hj => by rw [Radix.child, hz j hj, pteTarget_absent present_zero]⟩
  have hleaf : ∀ {p}, (s.setWord d i w).IsMapped D p ↔ s.IsMapped D p := by
    intro p
    rw [KState.IsMapped, KState.IsMapped, ← not_iff_not, ← Radix.leafRefs_eq_zero, ← Radix.leafRefs_eq_zero,
      KState.setMem_mem, hf.leafRefs_eq h.apart]
  have htab : ∀ {p}, (s.setWord d i w).IsTable D p → p = t ∨ s.IsTable D p := by
    rintro p ⟨d', hd', i', hi', hc⟩
    rw [KState.setMem_mem, hf.child_eq] at hc
    split at hc
    · cases hc
      exact Or.inl rfl
    · exact Or.inr ⟨d', hd', i', hi', hc⟩
  refine ⟨h.pool_lt, h.chain, h.free_pool, h.off_list, hf.apart h.apart, h.dir_used, ?_, ?_, ?_, ?_⟩
  · intro t' ht'
    rcases htab ht' with rfl | ht'
    · exact ⟨ht, hl⟩
    · exact h.table_used t' ht'
  · intro p hp
    have hp' := hleaf.mp hp
    obtain ⟨h₁, h₂, h₃, h₄⟩ := h.leaf_used p hp'
    refine ⟨h₁, h₂, h₃, fun ht' => ?_⟩
    rcases htab ht' with rfl | ht'
    · exact htm hp'
    · exact h₄ ht'
  · intro t' ht' j hj
    have hne : t' ≠ d := by
      rcases htab ht' with rfl | ht'
      · exact fun he => htd (he ▸ hd)
      · exact fun he => h.table_not_dir ht' (he ▸ hd)
    rw [KState.setMem_mem, Radix.setWord_frame_ne _ _ hne]
    rcases htab ht' with rfl | ht'
    · intro _
      rw [hz j hj]
      rfl
    · exact h.absent_zero t' ht' j hj
  · intro p hp hd'
    have h₁ : (s.setWord d i w).pdeRefs D p = s.pdeRefs D p + (if t = p then 1 else 0) := hf.tableRefs_eq
    have h₂ : (s.setWord d i w).pteRefs D p = s.pteRefs D p := hf.leafRefs_eq h.apart
    have hr := h.refs_eq p hp hd'
    change (s.pages p).refs = _
    rw [hr, h₁, h₂, BitVec.ofNat_add, BitVec.ofNat_add, BitVec.ofNat_add, apply_ite (BitVec.ofNat 32)]
    grind

theorem newDir (h : FrameInv s D pool L owed) (hl : d ∉ L) (hm : ¬ s.IsMapped D d) (ht : ¬ s.IsTable D d)
    (he : ∀ i ∈ lowDir, pteTarget (s.mem d i) = none) : FrameInv s (insert d D) pool L owed := by
  have htab : ∀ {p}, s.IsTable (insert d D) p ↔ s.IsTable D p := by
    intro p
    rw [KState.IsTable, KState.IsTable, ← not_iff_not, ← Radix.tableRefs_eq_zero, ← Radix.tableRefs_eq_zero,
      Radix.tableRefs_insert he]
  have hmap : ∀ {p}, s.IsMapped (insert d D) p ↔ s.IsMapped D p := by
    intro p
    rw [KState.IsMapped, KState.IsMapped, ← not_iff_not, ← Radix.leafRefs_eq_zero, ← Radix.leafRefs_eq_zero,
      Radix.leafRefs_insert he]
  have hold : ∀ d' ∈ insert d D, ∀ i ∈ lowDir, ∀ t, Radix.child pteTarget s.mem d' i = some t → d' ∈ D := by
    intro d' hd' i hi t hc
    rcases Finset.mem_insert.mp hd' with rfl | hd'
    · rw [Radix.child, he i hi] at hc
      cases hc
    · exact hd'
  refine ⟨h.pool_lt, h.chain, h.free_pool, h.off_list, ⟨?_, ?_⟩, ?_, ?_, ?_,
    fun t ht' => h.absent_zero t (htab.mp ht'), ?_⟩
  · intro d₁ hd₁ i₁ hi₁ d₂ hd₂ i₂ hi₂ t h₁ h₂
    exact h.apart.unshared d₁ (hold d₁ hd₁ i₁ hi₁ t h₁) i₁ hi₁ d₂ (hold d₂ hd₂ i₂ hi₂ t h₂) i₂ hi₂ t h₁ h₂
  · intro d₁ hd₁ i₁ hi₁ t h₁ hm'
    have hd' := hold d₁ hd₁ i₁ hi₁ t h₁
    rcases Finset.mem_insert.mp hm' with rfl | hm'
    · exact ht ⟨d₁, hd', i₁, hi₁, h₁⟩
    · exact h.apart.not_dir d₁ hd' i₁ hi₁ t h₁ hm'
  · intro d' hd'
    rcases Finset.mem_insert.mp hd' with rfl | hd'
    · exact hl
    · exact h.dir_used d' hd'
  · intro t ht'
    exact h.table_used t (htab.mp ht')
  · intro p hp
    obtain ⟨h₁, h₂, h₃, h₄⟩ := h.leaf_used p (hmap.mp hp)
    refine ⟨h₁, h₂, fun hm' => ?_, fun ht' => h₄ (htab.mp ht')⟩
    rcases Finset.mem_insert.mp hm' with rfl | hm'
    · exact hm (hmap.mp hp)
    · exact h₃ hm'
  · intro p hp hd'
    rw [KState.pdeRefs, KState.pteRefs, Radix.tableRefs_insert he, Radix.leafRefs_insert he]
    exact h.refs_eq p hp (fun hm' => hd' (Finset.mem_insert_of_mem hm'))

end FrameInv

end Cezos
