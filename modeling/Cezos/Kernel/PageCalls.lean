import Cezos.Kernel.CallInv
import Mathlib.Logic.Relation

namespace Cezos

open Lib

structure Session where
  s : KState
  given : Finset ℕ

/-- A page that `page_alloc` returned, that is not on the free list and is neither a table nor one of the
directories `D`. -/
structure Session.Owns (x : Session) (D : Finset ℕ) (ps : ℕ) : Prop where
  given : ps ∈ x.given
  used : ¬ x.s.OnFreeList ps
  not_dir : ps ∉ D
  not_table : ¬ x.s.IsTable D ps

/-- One call that returns, with permissions below `limit`, on the directories `D` below `U_TOP`. -/
inductive PageCall (st : Bool) (limit : ℕ) (D : Finset ℕ) : Session → Session → Prop
  | pageAlloc {x : Session} {s' : KState} (flags : Word) (ps : ℕ) (hr : Returns st (pageAlloc flags) x.s ps s') :
      PageCall st limit D x ⟨s', insert ps x.given⟩
  | freePage {x : Session} {s' : KState} (ps : ℕ) (ho : x.Owns D ps) (hr : Returns st (freePage ps) x.s () s') :
      PageCall st limit D x ⟨s', x.given⟩
  | insertPage {x : Session} {s' : KState} (pgdir : Word) (ps : ℕ) (va perms : Word) (r : Int)
      (hd : kernFrame pgdir ∈ D) (ha : pgoff pgdir = 0) (ho : x.Owns D ps) (hv : va < uTop)
      (hp : perms.toNat < limit) (hr : Returns st (insertPage pgdir ps va perms) x.s r s') :
      PageCall st limit D x ⟨s', x.given⟩
  | removePage {x : Session} {s' : KState} (pgdir va : Word) (hd : kernFrame pgdir ∈ D) (ha : pgoff pgdir = 0)
      (hv : va < uTop) (hp : isPagePresent (x.s.pdeAt pgdir va) = true)
      (hr : Returns st (removePage pgdir va) x.s () s') :
      PageCall st limit D x ⟨s', x.given⟩

structure WellFormed (s : KState) (d : ℕ) (L : List ℕ) : Prop where
  chain : s.FreeList L
  pages : ∀ q ∈ L, 0 < q ∧ q < s.pagesCount ∧ q < 1048576 ∧ (s.pages q).refs = 0#32
  dir : d ∉ L
  empty : ∀ i ∈ lowDir, isPagePresent (s.mem d i) = false

section Runs

variable {st : Bool} {s : KState} {d : ℕ} {D pool : Finset ℕ} {L : List ℕ} {x y : Session}

theorem WellFormed.balanced (h : WellFormed s d L) : Balanced s {d} L.toFinset L := by
  have hnone : ∀ f ∈ ({d} : Finset ℕ), ∀ i ∈ lowDir, Radix.child pteTarget s.mem f i = none := by
    intro f hf i hi
    rw [Finset.mem_singleton] at hf
    subst hf
    exact pteTarget_absent (h.empty i hi)
  have htab : ∀ t, ¬ s.IsTable {d} t := by
    rintro t ⟨f, hf, i, hi, hc⟩
    rw [hnone f hf i hi] at hc
    cases hc
  have hmap : ∀ q, ¬ s.IsMapped {d} q := by
    rintro q ⟨f, hf, i, hi, j, _, hc⟩
    rw [Radix.leaf_of_none _ _ (hnone f hf i hi)] at hc
    cases hc
  refine ⟨?_, h.chain, fun q hq => List.mem_toFinset.mpr hq, ?_, ⟨?_, ?_⟩, ?_, ?_, ?_, ?_, ?_⟩
  · intro q hq
    have := h.pages q (List.mem_toFinset.mp hq)
    exact ⟨this.1, this.2.1, this.2.2.1⟩
  · exact fun q hq hn => absurd (List.mem_toFinset.mp hq) hn
  · intro f hf i hi _ _ _ _ t hc
    rw [hnone f hf i hi] at hc
    cases hc
  · intro f hf i hi t hc
    rw [hnone f hf i hi] at hc
    cases hc
  · intro f hf
    rw [Finset.mem_singleton] at hf
    subst hf
    exact h.dir
  · exact fun t ht => absurd ht (htab t)
  · exact fun q hq => absurd hq (hmap q)
  · exact fun t ht => absurd ht (htab t)
  · intro q hq _
    rw [(h.pages q (List.mem_toFinset.mp hq)).2.2.2, KState.pdeRefs, KState.pteRefs,
      Radix.tableRefs_eq_zero.mpr (htab q), Radix.leafRefs_eq_zero.mpr (hmap q)]
    rfl

theorem Session.Owns.usable (h : x.Owns D d) (hb : Balanced x.s D pool L) (hg : x.given ⊆ pool) :
    Usable x.s D pool L d :=
  ⟨hg h.given, fun hm => h.used ((onFreeList_iff hb.chain).mpr hm), h.not_dir, h.not_table⟩

theorem PageCall.balanced (h : PageCall st 4096 D x y) (hb : Balanced x.s D pool L) (hg : x.given ⊆ pool) :
    ∃ L' d, Balanced y.s D pool L' ∧ y.given ⊆ pool ∧ Effect D pool d x.s y.s := by
  cases h with
  | pageAlloc flags ps hr =>
    obtain ⟨L', rfl, _, hb', _, _, he⟩ := pageAlloc_balanced (d := 0) hb hr
    exact ⟨L', 0, hb', Finset.insert_subset (hb.free_pool ps List.mem_cons_self) hg, he⟩
  | freePage ps ho hr =>
    have hu := ho.usable hb hg
    obtain ⟨hb', _, he⟩ := freePage_balanced (d := 0) hb hu.pool hu.used hu.not_dir hr
    exact ⟨_, 0, hb', hg, he⟩
  | insertPage pgdir ps va perms r hd ha ho hv hp hr =>
    obtain ⟨L', hb', _, he⟩ := insertPage_balanced hb hd ha hv (ho.usable hb hg) hp hr
    exact ⟨L', _, hb', hg, he⟩
  | removePage pgdir va hd ha hv hp hr =>
    obtain ⟨L', hdone⟩ := removePage_balanced hb hd ha hv hr
    exact ⟨L', _, hdone.balanced, hg, hdone.effect⟩

end Runs

def smallState : KState where
  mem := fun _ _ => 0#32
  pages := fun i => ⟨if i = 2 then some 5 else if i = 5 then some 3 else none, 0#32⟩
  pageFreeList := some 2
  pagesCount := 8
  pagesBasememCount := 0
  kernPageDirectory := 0xF0004000#32
  pagesBase := 0#32
  bootNextFree := kernelBaseAddress
  endBss := kernelBaseAddress
  nvram := fun _ => 0#8
  taskPgdir := fun _ => 0#32
  cr0 := 0#32
  cr3 := none
  tlb := .empty
  refill := fun _ _ => false
  clock := 0

end Cezos
