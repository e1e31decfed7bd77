import Cezos.Kernel.Effect
import Cezos.Kernel.Proc

namespace Cezos

open Lib

abbrev Balanced (s : KState) (D pool : Finset ℕ) (L : List ℕ) : Prop := FrameInv s D pool L (fun _ => 0#32)

variable {st : Bool} {s s' : KState} {D pool : Finset ℕ} {L : List ℕ} {d ps : ℕ} {pgdir va perms : Word}

theorem FrameInv.balanced {owed : ℕ → Word} (h : FrameInv s D pool L owed) (ho : ∀ q, owed q = 0#32) :
    Balanced s D pool L := by
  rwa [funext ho] at h

theorem pageAlloc_balanced (h : Balanced s D pool L) {flags : Word} (hr : Returns st (pageAlloc flags) s ps s') :
    ∃ L', L = ps :: L' ∧ ps ∉ L' ∧ Balanced s' D pool L' ∧ (∀ t, s'.IsTable D t ↔ s.IsTable D t) ∧
      (∀ q, s'.IsMapped D q ↔ s.IsMapped D q) ∧ Effect D pool d s s' := by
  by_cases hf : flags &&& pageZeroFilled = pageZeroFilled
  · obtain ⟨hl, rfl, _⟩ := (returns_pageAlloc_zero hf).mp hr
    obtain ⟨L', rfl, hn, hi⟩ := h.popFree hl
    have hp := h.free_pool ps List.mem_cons_self
    have hlt := h.pool_lt ps hp
    have hd := h.not_dir (List.mem_cons_self (a := ps))
    have ht : ¬ (s.popFree ps).IsTable D ps := h.not_table List.mem_cons_self
    rw [kernFrame_kva hlt.2.1 hlt.2.2]
    exact ⟨L', rfl, hn, hi.setFrame hd ht _, fun t => FrameInv.isTable_setFrame hd,
      fun q => FrameInv.isMapped_setFrame hd ht,
      (Effect.popFree hp : Effect D pool d s (s.popFree ps)).trans (Effect.setFrame hp hd ht _)⟩
  · obtain ⟨hl, rfl⟩ := (returns_pageAlloc_plain hf).mp hr
    obtain ⟨L', rfl, hn, hi⟩ := h.popFree hl
    exact ⟨L', rfl, hn, hi, fun t => Iff.rfl, fun q => Iff.rfl, .popFree (h.free_pool ps List.mem_cons_self)⟩

theorem freePage_balanced (h : Balanced s D pool L) (hp : ps ∈ pool) (hl : ps ∉ L) (hd : ps ∉ D)
    (hr : Returns st (freePage ps) s () s') :
    Balanced s' D pool (ps :: L) ∧ s'.mem = s.mem ∧ Effect D pool d s s' := by
  obtain ⟨hz, _, rfl⟩ := returns_freePage.mp hr
  obtain ⟨ht, hm⟩ := (h.refs_eq_zero_iff hp hd rfl).mp hz
  exact ⟨h.pushFree hp hl hd ht hm rfl, rfl, .pushFree hp⟩

theorem tableEntry_eq (ps : ℕ) : page2pa ps ||| tablePerm = page2pa ps ||| (pteW ||| pteU) ||| pteP := by
  rw [BitVec.or_assoc]
  rfl

theorem present_tableEntry (ps : ℕ) : isPagePresent (page2pa ps ||| tablePerm) = true := by
  rw [tableEntry_eq]
  exact present_entry

theorem pteFrame_tableEntry {ps : ℕ} (h : ps < 1048576) : pteFrame (page2pa ps ||| tablePerm) = ps := by
  rw [tableEntry_eq, pteFrame_entry (pgoff_page2pa ps) (by decide), pgnum_page2pa h]

theorem pteFrame_pageEntry (h : ps < 1048576) (hp : perms.toNat < 4096) : pteFrame (pageEntry ps perms) = ps := by
  rw [pageEntry, pteFrame_entry (pgoff_page2pa ps) hp, pgnum_page2pa h]

theorem pteTarget_pageEntry (h : ps < 1048576) (hp : perms.toNat < 4096) :
    pteTarget (pageEntry ps perms) = some ps :=
  pteTarget_some.mpr ⟨present_entry, pteFrame_pageEntry h hp⟩

structure TableReady (s s' : KState) (D pool : Finset ℕ) (L L' : List ℕ) (pgdir va p : Word) : Prop where
  balanced : Balanced s' D pool L'
  sub : ∀ q ∈ L', q ∈ L
  table : ∀ q, q ∉ L → s'.IsTable D q → s.IsTable D q
  mapped : ∀ q, s'.IsMapped D q ↔ s.IsMapped D q
  present : isPagePresent (s'.pdeAt pgdir va) = true
  ptr : p = s'.ptePtr pgdir va
  effect : Effect D pool (kernFrame pgdir) s s'

theorem getPageTable_balanced (h : Balanced s D pool L) (hd : kernFrame pgdir ∈ D) (ha : pgoff pgdir = 0)
    (hv : va < uTop) {create : Bool} {p : Word} (hr : Returns st (getPageTable pgdir va create) s p s') :
    ∃ L', TableReady s s' D pool L L' pgdir va p := by
  obtain ⟨_, ⟨hp, rfl, rfl⟩ | ⟨hp, _, ps, hl, rfl, rfl, _⟩⟩ := (returns_getPageTable ha).mp hr
  · exact ⟨L, h, fun q hq => hq, fun q _ ht => ht, fun q => Iff.rfl, hp, rfl, .refl⟩
  · have hra : Returns false (pageAlloc 1#32) s ps (s.allocZero ps) :=
      (returns_pageAlloc_zero (by decide)).mpr ⟨hl, rfl, by simp⟩
    obtain ⟨L', rfl, hn, hb, ht, hm, he⟩ := pageAlloc_balanced (d := kernFrame pgdir) h hra
    have hps := h.free_pool ps List.mem_cons_self
    have hlt := h.pool_lt ps hps
    have hpd := h.not_dir (List.mem_cons_self (a := ps))
    have hpt : ¬ (s.takeTable ps).IsTable D ps := fun hc => h.not_table List.mem_cons_self ((ht ps).mp hc)
    have hpm : ¬ (s.takeTable ps).IsMapped D ps := fun hc => h.not_mapped List.mem_cons_self ((hm ps).mp hc)
    have hframe : kernFrame (s.kva ps) = ps := kernFrame_kva hlt.2.1 hlt.2.2
    have hw : pteTarget (page2pa ps ||| tablePerm) = some ps :=
      pteTarget_some.mpr ⟨present_tableEntry ps, pteFrame_tableEntry hlt.2.2⟩
    have hne : kernFrame pgdir ≠ ps := fun hc => hpd (hc ▸ hd)
    have hi := pdx_mem_lowDir.mpr hv
    have habs : pteTarget ((s.takeTable ps).mem (kernFrame pgdir) (pdx va)) = none := by
      rw [KState.setPages_mem, KState.setMem_mem, hframe, Radix.setFrame_ne _ _ hne]
      exact pteTarget_absent hp
    have hz : ∀ j ∈ tableWords, (s.takeTable ps).mem ps j = 0#32 := by
      intro j _
      rw [KState.setPages_mem, KState.setMem_mem, hframe, Radix.setFrame_same]
    have hb' := (hb.setRefs ps (((s.allocZero ps).pages ps).refs + 1#32)).newTable hd hi habs hw hps hn hpd hpt
      hpm hz
    have hpde : (s.newTable pgdir va ps).pdeAt pgdir va = page2pa ps ||| tablePerm := KState.newTable_pdeAt
    refine ⟨L', hb'.balanced ?_, fun q hq => List.mem_cons_of_mem _ hq, ?_, ?_, ?_, ?_, ?_⟩
    · intro q
      by_cases hq : ps = q
      · subst hq
        grind
      · rw [if_neg hq, Function.update_of_ne (Ne.symm hq)]
        rfl
    · rintro q hq ⟨f, hf, i, hi', hc⟩
      rw [KState.setMem_mem, Radix.child_setDir] at hc
      split at hc
      · rw [hw] at hc
        cases hc
        simp at hq
      · exact (ht q).mp ⟨f, hf, i, hi', hc⟩
    · intro q
      rw [← hm q]
      have hf : Radix.Fresh pteTarget (s.takeTable ps).mem D lowDir tableWords (kernFrame pgdir) (pdx va) ps
          (page2pa ps ||| tablePerm) :=
        ⟨hd, hi, habs, hw, hpd, hpt, fun j hj => by rw [Radix.child, hz j hj, pteTarget_absent present_zero]⟩
      rw [KState.IsMapped, KState.IsMapped, ← not_iff_not, ← Radix.leafRefs_eq_zero, ← Radix.leafRefs_eq_zero]
      exact Eq.congr (hf.leafRefs_eq hb.apart) rfl
    · rw [hpde]
      exact present_tableEntry ps
    · rw [KState.ptePtr, hpde]
      rfl
    · have hb'' := hb.setRefs ps (((s.allocZero ps).pages ps).refs + 1#32)
      have he' : Effect D pool (kernFrame pgdir) (s.allocZero ps) (s.takeTable ps) := .setRefs hps _
      exact (he.trans he').trans (.setDir hb'' hd hi)

theorem Balanced.table (h : Balanced s D pool L) (hd : kernFrame pgdir ∈ D) (hv : va < uTop)
    (hp : isPagePresent (s.pdeAt pgdir va) = true) :
    s.IsTable D (pteFrame (s.pdeAt pgdir va)) ∧
      pteTarget (s.mem (kernFrame pgdir) (pdx va)) = some (pteFrame (s.pdeAt pgdir va)) ∧
      kernFrame (s.ptePtr pgdir va) = pteFrame (s.pdeAt pgdir va) ∧ kernIndex (s.ptePtr pgdir va) = ptx va := by
  have hc : pteTarget (s.mem (kernFrame pgdir) (pdx va)) = some (pteFrame (s.pdeAt pgdir va)) :=
    pteTarget_present hp
  have ht : s.IsTable D (pteFrame (s.pdeAt pgdir va)) := ⟨_, hd, _, pdx_mem_lowDir.mpr hv, hc⟩
  exact ⟨ht, hc, kernFrame_tablePtr (h.pool_lt _ (h.table_used _ ht).1).2.1, kernIndex_tablePtr _ _ _⟩

theorem Balanced.mapped (h : Balanced s D pool L) (hd : kernFrame pgdir ∈ D) (hv : va < uTop)
    (hp : isPagePresent (s.pdeAt pgdir va) = true) (hq : isPagePresent (s.pteAt pgdir va) = true) :
    s.IsMapped D (pteFrame (s.pteAt pgdir va)) := by
  obtain ⟨_, hc, hf, hi⟩ := h.table hd hv hp
  refine ⟨_, hd, _, pdx_mem_lowDir.mpr hv, _, ptx_mem_tableWords va, ?_⟩
  have hl := Radix.leaf_of_child pteTarget s.mem (j := ptx va) hc
  rw [hl, Radix.child, ← hf, ← hi]
  exact pteTarget_present hq

theorem Balanced.cleared (h : Balanced s D pool L) (hd : kernFrame pgdir ∈ D) (hv : va < uTop)
    (hp : isPagePresent (s.pdeAt pgdir va) = true)
    {u : KState} (hu : u.mem = (s.setWord (pteFrame (s.pdeAt pgdir va)) (ptx va) 0#32).mem)
    (hcount : u.pagesCount = s.pagesCount) :
    u.pdeAt pgdir va = s.pdeAt pgdir va ∧ isPagePresent (u.pteAt pgdir va) = false := by
  obtain ⟨ht, _, hf, hi⟩ := h.table hd hv hp
  have hne : kernFrame pgdir ≠ pteFrame (s.pdeAt pgdir va) := fun he => h.table_not_dir ht (he ▸ hd)
  have hdir : u.pdeAt pgdir va = s.pdeAt pgdir va := by
    rw [KState.pdeAt, hu, KState.setMem_mem, Radix.setWord_frame_ne _ _ hne]
    rfl
  have hptr : u.ptePtr pgdir va = s.ptePtr pgdir va := by
    rw [KState.ptePtr, hdir, hcount]
    rfl
  refine ⟨hdir, ?_⟩
  rw [KState.pteAt, hptr, KState.wordAt, hf, hi, hu, KState.setMem_mem, Radix.setWord_same]
  exact present_zero

structure Removed (s s' : KState) (D pool : Finset ℕ) (L L' : List ℕ) (pgdir va : Word) : Prop where
  balanced : Balanced s' D pool L'
  freed : ∀ q ∈ L', q ∈ L ∨ s.mappedPage pgdir va = some q
  table : ∀ q, s'.IsTable D q ↔ s.IsTable D q
  dir : s'.pdeAt pgdir va = s.pdeAt pgdir va
  gone : s.ptePtr pgdir va ≠ 0#32 → isPagePresent (s'.pteAt pgdir va) = false
  effect : Effect D pool (kernFrame pgdir) s s'

theorem removePage_balanced (h : Balanced s D pool L) (hd : kernFrame pgdir ∈ D) (ha : pgoff pgdir = 0)
    (hv : va < uTop) (hr : Returns st (removePage pgdir va) s () s') :
    ∃ L', Removed s s' D pool L L' pgdir va := by
  obtain ⟨hp, _, hr⟩ := (returns_removePage ha).mp hr
  obtain ⟨ht, hc, hf, hi⟩ := h.table hd hv hp
  have hlow := pdx_mem_lowDir.mpr hv
  have htd := h.table_not_dir ht
  rcases hr with ⟨hm, rfl⟩ | ⟨q, s₁, hm, _, hdec, rfl⟩
  · refine ⟨L, h, fun q hq => Or.inl hq, fun q => Iff.rfl, rfl, fun h0 => ?_, .refl⟩
    by_contra hne
    have hq := Bool.not_eq_false _ ▸ hne
    have hpool := h.pool_lt _ (h.leaf_used _ (h.mapped hd hv hp hq)).1
    have := mappedPage_some.mpr ⟨h0, hq, hpool.2.1, rfl⟩
    rw [hm] at this
    cases this
  · obtain ⟨h0, hq, _, rfl⟩ := mappedPage_some.mp hm
    have hleaf := h.leaf_used _ (h.mapped hd hv hp hq)
    rw [hf, hi] at hdec
    set t := pteFrame (s.pdeAt pgdir va) with htdef
    set q := pteFrame (s.pteAt pgdir va) with hqdef
    have hw0 : ∀ p, pteTarget 0#32 = some p → p ∈ pool ∧ p ∉ L ∧ p ∉ D ∧ ¬ s.IsTable D p := by
      intro p hp
      rw [pteTarget_absent present_zero] at hp
      cases hp
    have hset := h.setLeaf hd hlow (ptx_mem_tableWords va) hc hw0 (fun _ => rfl)
    have hold : pteTarget (s.mem t (ptx va)) = some q := by
      rw [← hf, ← hi]
      exact pteTarget_present hq
    rw [hold, pteTarget_absent present_zero] at hset
    have heff : Effect D pool (kernFrame pgdir) s (s.setWord t (ptx va) 0#32) := .setLeaf h hd hlow hc
    have htab : ∀ p, (s.setWord t (ptx va) 0#32).IsTable D p ↔ s.IsTable D p :=
      fun p => FrameInv.isTable_setWord htd
    have hgone : ∀ u : KState, u.mem = (s.setWord t (ptx va) 0#32).mem → u.pagesCount = s.pagesCount →
        u.pdeAt pgdir va = s.pdeAt pgdir va ∧ isPagePresent (u.pteAt pgdir va) = false := fun u => h.cleared hd hv hp
    rcases returns_pageDecref.mp hdec with ⟨hone, _, rfl⟩ | ⟨_, rfl⟩
    · have hb := (hset.setRefs q 0#32).balanced (fun p => by
        have hone' : (s.pages q).refs = 1#32 := hone
        by_cases hpq : q = p
        · subst hpq
          simp [hone']
        · rw [Function.update_of_ne (Ne.symm hpq)]
          simp [hpq])
      have hz : ((((s.setWord t (ptx va) 0#32).setRefs q 0#32).pages q).refs) = 0#32 := by simp
      obtain ⟨hnt, hnm⟩ := (hb.refs_eq_zero_iff hleaf.1 hleaf.2.2.1 rfl).mp hz
      refine ⟨q :: L, (hb.pushFree hleaf.1 hleaf.2.1 hleaf.2.2.1 hnt hnm rfl).dropTlb va, ?_, htab,
        (hgone _ rfl rfl).1,
        fun _ => (hgone _ rfl rfl).2, ((heff.trans (.setRefs hleaf.1 _)).trans (.pushFree hleaf.1)).trans
          (.dropTlb va)⟩
      intro p hp
      rcases List.mem_cons.mp hp with rfl | hp
      · exact Or.inr hm
      · exact Or.inl hp
    · have hb := (hset.setRefs q (((s.setWord t (ptx va) 0#32).pages q).refs - 1#32)).balanced (fun p => by
        by_cases hpq : q = p
        · subst hpq
          grind
        · rw [Function.update_of_ne (Ne.symm hpq)]
          simp [hpq])
      exact ⟨L, hb.dropTlb va, fun p hp => Or.inl hp, htab, (hgone _ rfl rfl).1, fun _ => (hgone _ rfl rfl).2,
        (heff.trans (.setRefs hleaf.1 _)).trans (.dropTlb va)⟩

structure Usable (s : KState) (D pool : Finset ℕ) (L : List ℕ) (ps : ℕ) : Prop where
  pool : ps ∈ pool
  used : ps ∉ L
  not_dir : ps ∉ D
  not_table : ¬ s.IsTable D ps

theorem Balanced.addEntry (h : Balanced s D pool L) (hd : kernFrame pgdir ∈ D) (hv : va < uTop)
    (hp : isPagePresent (s.pdeAt pgdir va) = true) (hu : Usable s D pool L ps) (hperm : perms.toNat < 4096)
    (hn : isPagePresent (s.pteAt pgdir va) = false) :
    Balanced ((s.setRefs ps ((s.pages ps).refs + 1#32)).setWord (kernFrame (s.ptePtr pgdir va))
      (kernIndex (s.ptePtr pgdir va)) (pageEntry ps perms)) D pool L := by
  obtain ⟨_, hc, hf, hi⟩ := h.table hd hv hp
  have hlt := h.pool_lt ps hu.pool
  have hw : pteTarget (pageEntry ps perms) = some ps := pteTarget_pageEntry hlt.2.2 hperm
  have hset := (h.setRefs ps ((s.pages ps).refs + 1#32)).setLeaf hd (pdx_mem_lowDir.mpr hv) (ptx_mem_tableWords va)
    (w := pageEntry ps perms) hc
    (by
      intro q hq
      rw [hw] at hq
      cases hq
      exact ⟨hu.pool, hu.used, hu.not_dir, hu.not_table⟩)
    (by
      intro hq
      rw [pageEntry, present_entry] at hq
      cases hq)
  rw [hf, hi]
  refine hset.balanced (fun q => ?_)
  have hold : pteTarget ((s.setRefs ps ((s.pages ps).refs + 1#32)).mem (pteFrame (s.pdeAt pgdir va)) (ptx va)) =
      none := by
    rw [← hf, ← hi]
    exact pteTarget_absent hn
  rw [hold, hw]
  by_cases hq : ps = q
  · subst hq
    grind
  · rw [Function.update_of_ne (Ne.symm hq)]
    simp [hq]

theorem Balanced.rewriteEntry (h : Balanced s D pool L) (hd : kernFrame pgdir ∈ D) (hv : va < uTop)
    (hp : isPagePresent (s.pdeAt pgdir va) = true) (hu : Usable s D pool L ps) (hperm : perms.toNat < 4096)
    (he : pteAddr (s.pteAt pgdir va) = page2pa ps) :
    Balanced (s.setWord (kernFrame (s.ptePtr pgdir va)) (kernIndex (s.ptePtr pgdir va)) (pageEntry ps perms))
      D pool L := by
  obtain ⟨ht, hc, hf, hi⟩ := h.table hd hv hp
  have hlt := h.pool_lt ps hu.pool
  have hw : pteTarget (pageEntry ps perms) = some ps := pteTarget_pageEntry hlt.2.2 hperm
  have hq : isPagePresent (s.pteAt pgdir va) = true := by
    by_contra hne
    have hz := h.absent_zero _ ht _ (ptx_mem_tableWords va) (by rw [← hf, ← hi]; exact Bool.not_eq_true _ ▸ hne)
    rw [← hf, ← hi] at hz
    have hps : ps = 0 := page2pa_inj hlt.2.2 (by omega) (he.symm.trans hz)
    omega
  have hold : pteTarget (s.mem (pteFrame (s.pdeAt pgdir va)) (ptx va)) = some ps := by
    rw [← hf, ← hi]
    refine pteTarget_some.mpr ⟨hq, ?_⟩
    rw [pteFrame, ← KState.wordAt, ← KState.pteAt, he, pgnum_page2pa hlt.2.2]
  have hset := h.setLeaf hd (pdx_mem_lowDir.mpr hv) (ptx_mem_tableWords va) (w := pageEntry ps perms) hc
    (by
      intro q hq
      rw [hw] at hq
      cases hq
      exact ⟨hu.pool, hu.used, hu.not_dir, hu.not_table⟩)
    (by
      intro hq
      rw [pageEntry, present_entry] at hq
      cases hq)
  rw [hf, hi]
  refine hset.balanced (fun q => ?_)
  rw [hold, hw]
  by_cases hq : ps = q <;> simp [hq]

theorem pteAddr_of_frame {w : Word} (h : pteFrame w = ps) : pteAddr w = page2pa ps := by
  have hlt := pteFrame_lt w
  have hpg : pgnum (pteAddr w) = ps := h
  apply BitVec.eq_of_toNat_eq
  rw [toNat_split (pteAddr w), hpg, pgoff_pteAddr, toNat_page2pa (by omega), Nat.add_zero]

theorem insertPage_balanced (h : Balanced s D pool L) (hd : kernFrame pgdir ∈ D) (ha : pgoff pgdir = 0)
    (hv : va < uTop) (hu : Usable s D pool L ps) (hperm : perms.toNat < 4096) {r : Int}
    (hr : Returns st (insertPage pgdir ps va perms) s r s') :
    ∃ L', Balanced s' D pool L' ∧ ps ∉ L' ∧ Effect D pool (kernFrame pgdir) s s' := by
  obtain ⟨p, s₁, hg, hr⟩ := returns_insertPage.mp hr
  obtain ⟨L₁, hready⟩ := getPageTable_balanced h hd ha hv hg
  have hb := hready.balanced
  have hps : ps ∉ L₁ := fun hm => hu.used (hready.sub ps hm)
  have hu₁ : Usable s₁ D pool L₁ ps :=
    ⟨hu.pool, hps, hu.not_dir, fun ht => hu.not_table (hready.table ps hu.used ht)⟩
  obtain ⟨_, hc, hf, hi⟩ := hb.table hd hv hready.present
  have hlow := pdx_mem_lowDir.mpr hv
  have hptr := hready.ptr
  rcases hr with ⟨_, _, rfl⟩ | ⟨h0, _, _, hins⟩
  · exact ⟨L₁, hb, hps, hready.effect⟩
  · subst hptr
    cases hins with
    | already he hp => exact ⟨L₁, hb, hps, hready.effect⟩
    | rewritten he hp hcl =>
      have hu' : Usable (s₁.dropTlb va) D pool L₁ ps := ⟨hu.pool, hps, hu.not_dir, hu₁.not_table⟩
      refine ⟨L₁, Balanced.rewriteEntry (hb.dropTlb va) hd hv hready.present hu' hperm he, hps, ?_⟩
      have he' : Effect D pool (kernFrame pgdir) s₁ (s₁.dropTlb va) := .dropTlb va
      rw [hf, hi]
      exact (hready.effect.trans he').trans (.setLeaf (hb.dropTlb va) hd hlow hc)
    | added he hn hcl =>
      refine ⟨L₁, hb.addEntry hd hv hready.present hu₁ hperm hn, hps, ?_⟩
      have he' : Effect D pool (kernFrame pgdir) s₁ (s₁.setRefs ps ((s₁.pages ps).refs + 1#32)) :=
        .setRefs hu.pool _
      rw [hf, hi]
      exact (hready.effect.trans he').trans (.setLeaf (hb.setRefs _ _) hd hlow hc)
    | @replaced s₂ he hn hrem hcl =>
      obtain ⟨L₂, hdone⟩ := removePage_balanced hb hd ha hv hrem
      have hps₂ : ps ∉ L₂ := by
        intro hm
        rcases hdone.freed ps hm with hm | hm
        · exact hps hm
        · obtain ⟨_, _, _, hq⟩ := mappedPage_some.mp hm
          exact he (pteAddr_of_frame hq)
      have hu₂ : Usable s₂ D pool L₂ ps := ⟨hu.pool, hps₂, hu.not_dir, fun ht =>
        hu₁.not_table ((hdone.table ps).mp ht)⟩
      have hp₂ : isPagePresent (s₂.pdeAt pgdir va) = true := by
        rw [hdone.dir]
        exact hready.present
      have hptr₂ : s₁.ptePtr pgdir va = s₂.ptePtr pgdir va := by
        rw [KState.ptePtr, KState.ptePtr, hdone.dir, hdone.effect.count]
      obtain ⟨_, hc₂, hf₂, hi₂⟩ := hdone.balanced.table hd hv hp₂
      have he' : Effect D pool (kernFrame pgdir) s₂ (s₂.setRefs ps ((s₂.pages ps).refs + 1#32)) :=
        .setRefs hu.pool _
      refine ⟨L₂, ?_, hps₂, ?_⟩
      · rw [hptr₂]
        exact hdone.balanced.addEntry hd hv hp₂ hu₂ hperm (hdone.gone h0)
      · rw [hptr₂, hf₂, hi₂]
        exact ((hready.effect.trans hdone.effect).trans he').trans
          (.setLeaf (hdone.balanced.setRefs _ _) hd hlow hc₂)

def KState.copyDir (s : KState) (task ps : ℕ) : KState :=
  { (s.allocZero ps).setFrame (kernFrame (s.kva ps)) ((s.allocZero ps).mem (kernFrame s.kernPageDirectory)) with
    taskPgdir := Function.update s.taskPgdir task (s.kva ps) }

def KState.taskDir (s : KState) (task ps : ℕ) : KState :=
  ((s.copyDir task ps).setWord (kernFrame (s.kva ps)) (pdx uVirtualPageTable)
    (paddr (s.kva ps) ||| pteP ||| pteW)).setRefs ps (((s.copyDir task ps).pages ps).refs + 1#32)

theorem returns_procInitVm {task : ℕ} : Returns st (procInitVm task) s () s' ↔
    ∃ ps, s.pageFreeList = some ps ∧ s.kva ps ≠ 0#32 ∧ s' = s.taskDir task ps ∧
      (st = true → s.inKernelImage (kernFrame (s.kva ps)) = false ∧ s.reaches (s.kva ps) true = true ∧
        (s.allocZero ps).reaches s.kernPageDirectory false = true ∧ (s.allocZero ps).reaches (s.kva ps) true = true ∧
        (s.copyDir task ps).reaches (entryPtr (s.kva ps) (pdx uVirtualPageTable)) true = true) := by
  have hf : ∀ ps, kernFrame (entryPtr ((s.allocZero ps).kva ps) (pdx uVirtualPageTable)) =
      kernFrame ((s.allocZero ps).kva ps) := fun ps => kernFrame_entryPtr (pgoff_kva _ _) (by decide)
  have hi : ∀ ps, kernIndex (entryPtr ((s.allocZero ps).kva ps) (pdx uVirtualPageTable)) = pdx uVirtualPageTable :=
    fun ps => kernIndex_entryPtr (pgoff_kva _ _) (by decide)
  simp only [procInitVm, returns_bind, returns_page2kva, returns_ite, returns_errorLoop, and_false, false_or,
    returns_read, memcpyPage, returns_check, returns_modify, returns_store, returns_incRefs,
    returns_pageAlloc_zero (show 1#32 &&& pageZeroFilled = pageZeroFilled by decide)]
  constructor
  · rintro ⟨ps, _, ⟨hl, rfl, hz⟩, _, _, ⟨rfl, rfl⟩, hn, _, _, ⟨rfl, rfl⟩, _, _, ⟨_, _, ⟨rfl, hc⟩, rfl⟩, _, _,
      rfl, _, _,
      ⟨rfl, hw⟩, rfl⟩
    refine ⟨ps, hl, hn, ?_, fun hs => ?_⟩
    · rw [hf ps, hi ps]
      rfl
    · have hc := hc hs
      simp only [Bool.and_eq_true, Bool.not_eq_true'] at hc
      exact ⟨(hz hs).1, (hz hs).2, hc.1.1, hc.1.2, hw hs⟩
  · rintro ⟨ps, hl, hn, rfl, hc⟩
    refine ⟨ps, _, ⟨hl, rfl, fun hs => ⟨(hc hs).1, (hc hs).2.1⟩⟩, _, _, ⟨rfl, rfl⟩, hn, _, _, ⟨rfl, rfl⟩, (), _,
      ⟨(), _, ⟨rfl, fun hs => ?_⟩, rfl⟩, (), _, rfl, (), _, ⟨rfl, fun hs => (hc hs).2.2.2.2⟩, ?_⟩
    · have hc := hc hs
      simp only [Bool.and_eq_true, Bool.not_eq_true']
      exact ⟨⟨hc.2.2.1, hc.2.2.2.1⟩, hc.1⟩
    · rw [hf ps, hi ps]
      rfl

theorem procInitVm_balanced (h : Balanced s D pool L) (hk : kernFrame s.kernPageDirectory ∈ D)
    (he : ∀ i ∈ lowDir, isPagePresent (s.mem (kernFrame s.kernPageDirectory) i) = false) {task : ℕ}
    (hr : Returns st (procInitVm task) s () s') :
    ∃ ps L', L = ps :: L' ∧ kernFrame (s.kva ps) = ps ∧
      Balanced s' (insert ps D) pool L' ∧ Effect D pool ps s { s' with taskPgdir := s.taskPgdir } ∧
      s'.taskPgdir = Function.update s.taskPgdir task (s.kva ps) := by
  obtain ⟨ps, hl, _, rfl, _⟩ := returns_procInitVm.mp hr
  have hra : Returns false (pageAlloc 1#32) s ps (s.allocZero ps) :=
    (returns_pageAlloc_zero (by decide)).mpr ⟨hl, rfl, by simp⟩
  obtain ⟨L', rfl, hn, hb, ht, hm, heff⟩ := pageAlloc_balanced (d := ps) h hra
  have hps := h.free_pool ps List.mem_cons_self
  have hlt := h.pool_lt ps hps
  have hpd := h.not_dir (List.mem_cons_self (a := ps))
  have hframe : kernFrame (s.kva ps) = ps := kernFrame_kva hlt.2.1 hlt.2.2
  have hpt : ¬ (s.allocZero ps).IsTable D ps := fun hc => h.not_table List.mem_cons_self ((ht ps).mp hc)
  have hpm : ¬ (s.allocZero ps).IsMapped D ps := fun hc => h.not_mapped List.mem_cons_self ((hm ps).mp hc)
  let g : ℕ → Word := fun i => if i = pdx uVirtualPageTable then paddr (s.kva ps) ||| pteP ||| pteW
    else (s.allocZero ps).mem (kernFrame s.kernPageDirectory) i
  have hmem : (s.taskDir task ps).mem = ((s.allocZero ps).setFrame ps g).mem := by
    funext f i
    simp only [KState.taskDir, KState.copyDir, KState.setPages_mem, KState.setMem_mem, hframe, Radix.setWord,
      Radix.setFrame, g]
    grind
  have hc := hb.setFrame hpd hpt g
  have hpages : (s.taskDir task ps).pages =
      (((s.allocZero ps).setFrame ps g).setRefs ps (((s.allocZero ps).pages ps).refs + 1#32)).pages := rfl
  have hkp : kernFrame s.kernPageDirectory ≠ ps := fun hc => hpd (hc ▸ hk)
  have hlow : ∀ i ∈ lowDir, pteTarget (((s.allocZero ps).setFrame ps g).mem ps i) = none := by
    intro i hi
    have hne : i ≠ pdx uVirtualPageTable := by
      rintro rfl
      simp [lowDir, pdx_eq, uVirtualPageTable_eq] at hi
    rw [KState.setMem_mem, Radix.setFrame_same]
    simp only [g, if_neg hne]
    rw [heff.others _ hk hkp]
    exact pteTarget_absent (he i hi)
  have hdir := (hc.newDir hn (fun hx => hpm ((FrameInv.isMapped_setFrame hpd hpt).mp hx))
    (fun hx => hpt ((FrameInv.isTable_setFrame hpd).mp hx)) hlow).setRefs ps
    (((s.allocZero ps).pages ps).refs + 1#32)
  refine ⟨ps, L', rfl, hframe, ?_, ?_, rfl⟩
  · have hfinal : FrameInv (s.taskDir task ps) _ _ _ _ := hdir.congr hmem hpages rfl rfl
    obtain ⟨h₁, h₂, h₃, h₄, h₅, h₆, h₇, h₈, h₉, h₁₀⟩ := hfinal
    refine ⟨h₁, h₂, h₃, h₄, h₅, h₆, h₇, h₈, h₉, fun q hq hd => ?_⟩
    have hne : q ≠ ps := fun he => hd (by simp [he])
    have := h₁₀ q hq hd
    rwa [Function.update_of_ne hne] at this
  · have he' : Effect D pool ps ((s.allocZero ps).setFrame ps g)
        { s.taskDir task ps with taskPgdir := s.taskPgdir } := by
      refine .of_mem_eq hmem (fun q hq => ?_) rfl rfl rfl rfl rfl
      exact Function.update_of_ne (fun he : q = ps => hq (he ▸ hps)) _ _
    exact (heff.trans (.setFrame hps hpd hpt g)).trans he'

end Cezos
