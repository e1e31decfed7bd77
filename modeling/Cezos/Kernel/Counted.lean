import Cezos.Kernel.CallInv
import Cezos.Lib.Tally

namespace Cezos

open Lib

def tableDirs : Finset ℕ := tableWords.erase (pdx uVirtualPageTable)

theorem pdx_mem_tableDirs {va : Word} : pdx va ∈ tableDirs ↔ pdx va ≠ pdx uVirtualPageTable := by
  simp [tableDirs, tableWords, pdx_lt]

namespace KState

def cellTarget (s : KState) (c : ℕ × ℕ) : Option ℕ := pteTarget (s.mem c.1 c.2)

def kernTables (s : KState) : Finset ℕ :=
  tableDirs.biUnion (fun i => (pteTarget (s.mem (kernFrame s.kernPageDirectory) i)).toFinset)

def staticCells (s : KState) : Finset (ℕ × ℕ) :=
  (s.kernTables ×ˢ tableWords).filter (fun c => (s.cellTarget c).any (fun q => decide (q < s.pagesCount)))

def Maps (s : KState) (pgdir va : Word) (q : ℕ) : Prop :=
  isPagePresent (s.pdeAt pgdir va) = true ∧ s.mappedPage pgdir va = some q

def Static (s : KState) (va : Word) : Prop := ∃ q, s.Maps s.kernPageDirectory va q

end KState

variable {st : Bool} {b s s' : KState} {D T U : Finset ℕ} {L L' : List ℕ} {d q t i j ps : ℕ}
    {pgdir va perms w : Word}

theorem mappedPage_of_table (ht : pteTarget (s.mem (kernFrame pgdir) (pdx va)) = some t) (hlt : t < s.pagesCount)
    (hc : s.pagesCount < 65536) :
    kernFrame (s.ptePtr pgdir va) = t ∧ kernIndex (s.ptePtr pgdir va) = ptx va ∧ s.ptePtr pgdir va ≠ 0#32 ∧
      ∀ q, s.mappedPage pgdir va = some q ↔ pteTarget (s.mem t (ptx va)) = some q ∧ q < s.pagesCount := by
  obtain ⟨_, hf⟩ := pteTarget_some.mp ht
  have hframe : kernFrame (s.ptePtr pgdir va) =
    t := (kernFrame_tablePtr (by rw [KState.pdeAt, hf]; exact hlt)).trans hf
  have hidx : kernIndex (s.ptePtr pgdir va) = ptx va := kernIndex_tablePtr _ _ _
  have h0 : s.ptePtr pgdir va ≠ 0#32 := by
    intro hz
    have hzero : kernFrame 0#32 = 65536 := by decide
    rw [hz] at hframe
    omega
  refine ⟨hframe, hidx, h0, fun q => ?_⟩
  rw [mappedPage_some, KState.pteAt, KState.wordAt, hframe, hidx, pteTarget_some]
  constructor
  · rintro ⟨_, hp, hq, hfr⟩
    exact ⟨⟨hp, hfr⟩, hq⟩
  · rintro ⟨⟨hp, hfr⟩, hq⟩
    exact ⟨h0, hp, hq, hfr⟩

theorem mem_staticCells : (t, j) ∈ b.staticCells ↔
    t ∈ b.kernTables ∧ j ∈ tableWords ∧ ∃ q, pteTarget (b.mem t j) = some q ∧ q < b.pagesCount := by
  simp [KState.staticCells, KState.cellTarget, and_assoc, Option.any_eq_true]

attribute [irreducible] KState.kernTables KState.staticCells

/-- The words of the tables `T` whose references are counted: all but the static ones of `b`. -/
def countedCells (b : KState) (T : Finset ℕ) : Finset (ℕ × ℕ) := (T ×ˢ tableWords) \ b.staticCells

/-- The counted references to a page: one for a page that is in use as `U` says, and one for each cell. -/
def countedRefs (b s : KState) (T U : Finset ℕ) (q : ℕ) : ℕ :=
  (if q ∈ U then 1 else 0) + tally (countedCells b T) s.cellTarget q

theorem countedCells_insert {q : ℕ} {T : Finset ℕ} (hs : ∀ j, (q, j) ∉ b.staticCells) :
    countedCells b (insert q T) = countedCells b T ∪ {q} ×ˢ tableWords := by
  ext ⟨t, j⟩
  simp only [countedCells, Finset.mem_sdiff, Finset.mem_product, Finset.mem_insert, Finset.mem_union,
    Finset.mem_singleton]
  constructor
  · rintro ⟨⟨rfl | ht, hj⟩, hn⟩
    · exact Or.inr ⟨rfl, hj⟩
    · exact Or.inl ⟨⟨ht, hj⟩, hn⟩
  · rintro (⟨⟨ht, hj⟩, hn⟩ | ⟨rfl, hj⟩)
    · exact ⟨⟨Or.inr ht, hj⟩, hn⟩
    · exact ⟨⟨Or.inl rfl, hj⟩, hs j⟩

theorem tally_insert (hs : ∀ j, (q, j) ∉ b.staticCells) (hm : ∀ t ∈ T, s'.mem t = s.mem t)
    (hz : ∀ j ∈ tableWords, isPagePresent (s'.mem q j) = false) (p : ℕ) :
    tally (countedCells b (insert q T)) s'.cellTarget p = tally (countedCells b T) s.cellTarget p := by
  rw [countedCells_insert hs, tally_union]
  · apply tally_congr
    rintro ⟨t, j⟩ hc
    have hT : t ∈ T := (Finset.mem_product.mp (Finset.mem_sdiff.mp hc).1).1
    rw [KState.cellTarget, KState.cellTarget, hm t hT]
  · rintro ⟨t, j⟩ hc
    obtain ⟨ht, hj⟩ := Finset.mem_product.mp hc
    obtain rfl := Finset.mem_singleton.mp ht
    rw [KState.cellTarget]
    exact pteTarget_absent (hz j hj)

/-- The counters agree with the tables `T` of the directories `D`, but for the cells that `b` has mapped statically.
The pages of `U` are in use for themselves. -/
structure CountInv (b s : KState) (D T U : Finset ℕ) (L : List ℕ) : Prop where
  count : s.pagesCount = b.pagesCount
  bound : b.pagesCount < 65536
  chain : s.FreeList L
  free : ∀ q ∈ L, q < s.pagesCount ∧ (s.pages q).refs = 0#32
  dirs : D ⊆ U
  used : T ⊆ U
  tables_lt : ∀ t ∈ T, t < s.pagesCount
  apart : ∀ t ∈ T, t ∉ D
  static : ∀ t ∈ b.kernTables, t ∈ T
  tables : ∀ d ∈ D, ∀ i ∈ tableDirs, ∀ t, pteTarget (s.mem d i) = some t →
    t ∈ T ∧ (t ∈ b.kernTables → pteTarget (b.mem (kernFrame b.kernPageDirectory) i) = some t)
  absent : ∀ t ∈ T, ∀ j ∈ tableWords, isPagePresent (s.mem t j) = false → pteAddr (s.mem t j) = 0#32
  refs : ∀ q < s.pagesCount, (s.pages q).refs = BitVec.ofNat 32 (countedRefs b s T U q)

namespace CountInv

theorem countedRefs_lt (h : CountInv b s D T U L) (q : ℕ) : countedRefs b s T U q < 2 ^ 31 := by
  have hT : T.card ≤ 65536 := by
    have hsub : T ⊆ Finset.range 65536 := by
      intro t ht
      have := h.tables_lt t ht
      have := h.count
      have := h.bound
      rw [Finset.mem_range]
      omega
    simpa using Finset.card_le_card hsub
  have hcells : tally (countedCells b T) s.cellTarget q ≤ T.card * 1024 := by
    calc tally (countedCells b T) s.cellTarget q ≤ (countedCells b T).card := tally_le
      _ ≤ (T ×ˢ tableWords).card := Finset.card_le_card Finset.sdiff_subset
      _ = T.card * 1024 := by rw [Finset.card_product, tableWords, Finset.card_range]
  rw [countedRefs]
  split <;> omega

theorem toNat_refs (h : CountInv b s D T U L) (hq : q < s.pagesCount) :
    (s.pages q).refs.toNat = countedRefs b s T U q := by
  rw [h.refs q hq, BitVec.toNat_ofNat, Nat.mod_eq_of_lt]
  exact Nat.lt_trans (h.countedRefs_lt q) (by decide)

theorem unused (h : CountInv b s D T U L) (hq : q < s.pagesCount) (hz : (s.pages q).refs = 0#32) :
    q ∉ U ∧ ∀ c ∈ countedCells b T, s.cellTarget c ≠ some q := by
  have hr := h.toNat_refs hq
  rw [hz, BitVec.toNat_ofNat, Nat.zero_mod, countedRefs, eq_comm, Nat.add_eq_zero_iff] at hr
  refine ⟨fun hu => ?_, tally_eq_zero.mp hr.2⟩
  rw [if_pos hu] at hr
  omega

theorem free_unused (h : CountInv b s D T U L) (hq : q ∈ L) : q ∉ U ∧ q ∉ T ∧ q ∉ D := by
  obtain ⟨hlt, hz⟩ := h.free q hq
  have hu := (h.unused hlt hz).1
  exact ⟨hu, fun ht => hu (h.used ht), fun hd => hu (h.dirs hd)⟩

theorem static_table (h : CountInv b s D T U L) (hc : (t, j) ∈ b.staticCells) : t ∈ T :=
  h.static t (mem_staticCells.mp hc).1

theorem countedRefs_insert (hu : q ∉ U) (hcell : ∀ c ∈ countedCells b T, s.cellTarget c ≠ some q) (p : ℕ) :
    countedRefs b s T (insert q U) p = if p = q then 1 else countedRefs b s T U p := by
  by_cases hp : p = q
  · subst hp
    rw [if_pos rfl, countedRefs, if_pos (Finset.mem_insert_self _ _), tally_eq_zero.mpr hcell]
  · have hmem : p ∈ insert q U ↔ p ∈ U := by simp [hp]
    rw [if_neg hp, countedRefs, countedRefs]
    simp only [hmem]

theorem congr (h : CountInv b s D T U L) (hc : s'.pagesCount = s.pagesCount) (hl : s'.FreeList L')
    (hf : ∀ q ∈ L', q < s.pagesCount ∧ (s.pages q).refs = 0#32) (hp : ∀ q, (s'.pages q).refs = (s.pages q).refs)
    (hd : ∀ f ∈ D, s'.mem f = s.mem f) (ht : ∀ f ∈ T, s'.mem f = s.mem f) : CountInv b s' D T U L' where
  count := hc.trans h.count
  bound := h.bound
  chain := hl
  free q hq := by
    rw [hc, hp]
    exact hf q hq
  dirs := h.dirs
  used := h.used
  tables_lt := by
    rw [hc]
    exact h.tables_lt
  apart := h.apart
  static := h.static
  tables d hm i hi t htt := by
    rw [hd d hm] at htt
    exact h.tables d hm i hi t htt
  absent t hm j hj := by
    rw [ht t hm]
    exact h.absent t hm j hj
  refs q hq := by
    have hcells : tally (countedCells b T) s'.cellTarget q = tally (countedCells b T) s.cellTarget q := by
      apply tally_congr
      intro c hc
      have hT : c.1 ∈ T := (Finset.mem_product.mp (Finset.mem_sdiff.mp hc).1).1
      rw [KState.cellTarget, ht _ hT, KState.cellTarget]
    rw [hp, h.refs q (hc ▸ hq), countedRefs, countedRefs, hcells]

theorem dropTlb (h : CountInv b s D T U L) (va : Word) : CountInv b (s.dropTlb va) D T U L :=
  h.congr rfl h.chain h.free (fun _ => rfl) (fun _ _ => rfl) (fun _ _ => rfl)

theorem popFree (h : CountInv b s D T U (q :: L)) : CountInv b (s.popFree q) D T U L :=
  h.congr rfl h.chain.popFree (fun p hp => h.free p (List.mem_cons_of_mem _ hp)) (KState.popFree_refs s q)
    (fun _ _ => rfl) (fun _ _ => rfl)

theorem setFrame (h : CountInv b s D T U L) (hd : q ∉ D) (ht : q ∉ T) (g : ℕ → Word) :
    CountInv b (s.setFrame q g) D T U L := by
  refine h.congr rfl h.chain h.free (fun _ => rfl) (fun f hf => ?_) (fun f hf => ?_)
  · exact Radix.setFrame_ne _ _ (fun he : f = q => hd (he ▸ hf))
  · exact Radix.setFrame_ne _ _ (fun he : f = q => ht (he ▸ hf))

theorem pushFree (h : CountInv b s D T U L) (hq : q < s.pagesCount) (hn : q ∉ L) (hz : (s.pages q).refs = 0#32) :
    CountInv b (s.pushFree q) D T U (q :: L) := by
  refine h.congr rfl (h.chain.pushFree hn) (fun p hp => ?_) (fun p => ?_) (fun _ _ => rfl) (fun _ _ => rfl)
  · rcases List.mem_cons.mp hp with rfl | hp
    · exact ⟨hq, hz⟩
    · exact h.free p hp
  · rw [KState.pushFree_refs]
    split
    · next he => rw [he, hz]
    · rfl

theorem write (h : CountInv b s D T U L) (hc : (t, j) ∈ countedCells b T)
    (hw : isPagePresent w = false → pteAddr w = 0#32) (hm : s'.mem = Radix.setWord s.mem t j w)
    (hn : s'.pagesCount = s.pagesCount) (hl : s'.FreeList L) (hf : ∀ q ∈ L, (s'.pages q).refs = 0#32)
    (hr : ∀ q < s.pagesCount, (s'.pages q).refs + (if pteTarget (s.mem t j) = some q then 1#32 else 0#32) =
      (s.pages q).refs + (if pteTarget w = some q then 1#32 else 0#32)) : CountInv b s' D T U L := by
  obtain ⟨hcell, _⟩ := Finset.mem_sdiff.mp hc
  obtain ⟨ht, hj⟩ := Finset.mem_product.mp hcell
  have htd := h.apart t ht
  refine ⟨hn.trans h.count, h.bound, hl, fun q hq => ?_, h.dirs, h.used, ?_, h.apart, h.static, ?_, ?_, ?_⟩
  · rw [hn]
    exact ⟨(h.free q hq).1, hf q hq⟩
  · rw [hn]
    exact h.tables_lt
  · intro d hd i hi t' ht'
    rw [hm, Radix.setWord_frame_ne _ _ (fun he : d = t => htd (he ▸ hd))] at ht'
    exact h.tables d hd i hi t' ht'
  · intro t' ht' j' hj' hp
    rw [hm] at hp ⊢
    by_cases he : t' = t ∧ j' = j
    · obtain ⟨rfl, rfl⟩ := he
      rw [Radix.setWord_same] at hp ⊢
      exact hw hp
    · have hsame : Radix.setWord s.mem t j w t' j' = s.mem t' j' := if_neg he
      rw [hsame] at hp ⊢
      exact h.absent t' ht' j' hj' hp
  · intro q hq
    rw [hn] at hq
    have hnew : s'.cellTarget (t, j) = pteTarget w := by
      rw [KState.cellTarget, hm]
      exact congrArg pteTarget (Radix.setWord_same _ _)
    have htally : tally (countedCells b T) s'.cellTarget q + (if s.cellTarget (t, j) = some q then 1 else 0) =
        tally (countedCells b T) s.cellTarget q + (if s'.cellTarget (t, j) = some q then 1 else 0) := by
      apply tally_write hc
      intro x _ hne
      have hsame : Radix.setWord s.mem t j w x.1 x.2 = s.mem x.1 x.2 :=
        if_neg (fun he => hne (Prod.ext he.1 he.2))
      rw [KState.cellTarget, hm, hsame, KState.cellTarget]
    rw [hnew] at htally
    have hold : s.cellTarget (t, j) = pteTarget (s.mem t j) := rfl
    rw [hold] at htally
    have hsum : BitVec.ofNat 32 (countedRefs b s' T U q) + (if pteTarget (s.mem t j) = some q then 1#32 else 0#32) =
        BitVec.ofNat 32 (countedRefs b s T U q) + (if pteTarget w = some q then 1#32 else 0#32) := by
      have hword : ∀ p : Prop, [Decidable p] →
        (if p then 1#32 else 0#32) = BitVec.ofNat 32 (if p then 1 else 0) := by
        intro p _
        split <;> rfl
      rw [hword, hword, ← BitVec.ofNat_add, ← BitVec.ofNat_add, countedRefs, countedRefs, Nat.add_assoc, htally,
        Nat.add_assoc]
    rw [← h.refs q hq, ← hr q hq] at hsum
    exact ((BitVec.add_left_inj _).mp hsum).symm

theorem rewrite (h : CountInv b s D T U L) (ht : t ∈ T) (hp : isPagePresent w = true)
    (hw : pteTarget w = pteTarget (s.mem t j)) : CountInv b (s.setWord t j w) D T U L := by
  have htd := h.apart t ht
  have hdir : ∀ d ∈ D, (s.setWord t j w).mem d = s.mem d :=
    fun d hd => Radix.setWord_frame_ne _ _ (fun he : d = t => htd (he ▸ hd))
  have hsame : ∀ c, (s.setWord t j w).cellTarget c = s.cellTarget c := by
    intro c
    rw [KState.cellTarget, KState.cellTarget, KState.setMem_mem, Radix.setWord]
    split
    · next he => rw [hw, he.1, he.2]
    · rfl
  refine ⟨h.count, h.bound, h.chain, h.free, h.dirs, h.used, h.tables_lt, h.apart, h.static, ?_, ?_, ?_⟩
  · intro d hd i hi t' ht'
    rw [hdir d hd] at ht'
    exact h.tables d hd i hi t' ht'
  · intro t' ht' j' hj' hn
    rw [KState.setMem_mem, Radix.setWord] at hn ⊢
    split at hn
    · rw [hp] at hn
      cases hn
    · next he =>
      rw [if_neg he]
      exact h.absent t' ht' j' hj' hn
  · intro q hq
    rw [countedRefs, tally_congr (fun c _ => hsame c)]
    exact h.refs q hq

theorem newTable (h : CountInv b s D T U L) (hd : d ∈ D) (hi : i ∈ tableDirs) (hq : q < s.pagesCount)
    (hz : (s.pages q).refs = 0#32) (hn : q ∉ L) (hw : pteTarget w = some q)
    (hzero : ∀ j ∈ tableWords, s.mem q j = 0#32)
    (hm : s'.mem = Radix.setWord s.mem d i w) (hc : s'.pagesCount = s.pagesCount) (hl : s'.FreeList L)
    (hr : ∀ p, (s'.pages p).refs = if p = q then 1#32 else (s.pages p).refs) :
    CountInv b s' D (insert q T) (insert q U) L := by
  obtain ⟨hu, hcell⟩ := h.unused hq hz
  have hqT : q ∉ T := fun ht => hu (h.used ht)
  have hqD : q ∉ D := fun hd => hu (h.dirs hd)
  have hdT : ∀ t ∈ T, t ≠ d := fun t ht he => h.apart t ht (he ▸ hd)
  have hdq : q ≠ d := fun he => hqD (he ▸ hd)
  have hmem : ∀ f, f ≠ d → s'.mem f = s.mem f := by
    intro f hf
    rw [hm, Radix.setWord_frame_ne _ _ hf]
  refine ⟨hc.trans h.count, h.bound, hl, fun p hp => ?_, ?_, ?_, ?_, ?_, ?_, ?_, ?_, ?_⟩
  · have hpq : p ≠ q := fun he => hn (he ▸ hp)
    rw [hc, hr, if_neg hpq]
    exact h.free p hp
  · exact h.dirs.trans (Finset.subset_insert _ _)
  · exact Finset.insert_subset_insert _ h.used
  · intro t ht
    rw [hc]
    rcases Finset.mem_insert.mp ht with rfl | ht
    · exact hq
    · exact h.tables_lt t ht
  · intro t ht
    rcases Finset.mem_insert.mp ht with rfl | ht
    · exact hqD
    · exact h.apart t ht
  · exact fun t ht => Finset.mem_insert_of_mem (h.static t ht)
  · intro f hf i' hi' t ht
    by_cases he : f = d ∧ i' = i
    · obtain ⟨rfl, rfl⟩ := he
      rw [hm, Radix.setWord_same, hw, Option.some.injEq] at ht
      subst ht
      exact ⟨Finset.mem_insert_self _ _, fun hk => absurd (h.static _ hk) hqT⟩
    · have hsame : Radix.setWord s.mem d i w f i' = s.mem f i' := if_neg he
      rw [hm, hsame] at ht
      obtain ⟨h₁, h₂⟩ := h.tables f hf i' hi' t ht
      exact ⟨Finset.mem_insert_of_mem h₁, h₂⟩
  · intro t ht j hj hp
    rcases Finset.mem_insert.mp ht with rfl | ht
    · rw [hmem _ hdq, hzero j hj]
      decide
    · rw [hmem t (hdT t ht)] at hp ⊢
      exact h.absent t ht j hj hp
  · intro p hp
    rw [hc] at hp
    have htally : tally (countedCells b (insert q T)) s'.cellTarget p = tally (countedCells b T) s.cellTarget p := by
      refine tally_insert (fun j hs => hqT (h.static_table hs)) (fun t ht => hmem t (hdT t ht)) (fun j hj => ?_) p
      rw [hmem _ hdq, hzero j hj]
      exact present_zero
    have hcount := CountInv.countedRefs_insert (s := s) hu hcell p
    rw [countedRefs] at hcount
    rw [countedRefs, htally, hcount, hr]
    split
    · rfl
    · exact h.refs p hp

theorem newDir (h : CountInv b s D T U L) (hd : d ∈ D) (hq : q < s.pagesCount) (hz : (s.pages q).refs = 0#32)
    (hn : q ∉ L) (hrow : ∀ i ∈ tableDirs, s'.mem q i = s.mem d i) (hm : ∀ f, f ≠ q → s'.mem f = s.mem f)
    (hc : s'.pagesCount = s.pagesCount) (hl : s'.FreeList L)
    (hr : ∀ p, (s'.pages p).refs = if p = q then 1#32 else (s.pages p).refs) :
    CountInv b s' (insert q D) T (insert q U) L := by
  obtain ⟨hu, hcell⟩ := h.unused hq hz
  have hqT : q ∉ T := fun ht => hu (h.used ht)
  have hne : ∀ t ∈ T, t ≠ q := fun t ht he => hqT (he ▸ ht)
  refine ⟨hc.trans h.count, h.bound, hl, fun p hp => ?_, ?_, ?_, ?_, ?_, h.static, ?_, ?_, ?_⟩
  · have hpq : p ≠ q := fun he => hn (he ▸ hp)
    rw [hc, hr, if_neg hpq]
    exact h.free p hp
  · exact Finset.insert_subset_insert _ h.dirs
  · exact h.used.trans (Finset.subset_insert _ _)
  · rw [hc]
    exact h.tables_lt
  · intro t ht hmem
    rcases Finset.mem_insert.mp hmem with rfl | hmem
    · exact hqT ht
    · exact h.apart t ht hmem
  · intro f hf i hi t ht
    by_cases he : f = q
    · subst he
      rw [hrow i hi] at ht
      exact h.tables d hd i hi t ht
    · rw [hm f he] at ht
      exact h.tables f (Finset.mem_of_mem_insert_of_ne hf he) i hi t ht
  · intro t ht j hj hp
    rw [hm t (hne t ht)] at hp ⊢
    exact h.absent t ht j hj hp
  · intro p hp
    rw [hc] at hp
    have htally : tally (countedCells b T) s'.cellTarget p = tally (countedCells b T) s.cellTarget p := by
      apply tally_congr
      rintro ⟨t, j⟩ hc
      have hT : t ∈ T := (Finset.mem_product.mp (Finset.mem_sdiff.mp hc).1).1
      rw [KState.cellTarget, KState.cellTarget, hm t (hne t hT)]
    have hcount := CountInv.countedRefs_insert (s := s) hu hcell p
    rw [countedRefs] at hcount
    rw [countedRefs, htally, hcount, hr]
    split
    · rfl
    · exact h.refs p hp

end CountInv

end Cezos
