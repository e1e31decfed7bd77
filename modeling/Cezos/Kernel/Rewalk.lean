import Cezos.Kernel.MapCalls
import Cezos.Kernel.Walk

namespace Cezos

open Lib

variable {st : Bool} {s s₁ s' : KState} {D pool : Finset ℕ} {L L₁ L' : List ℕ} {d q t ps : ℕ}
    {pgdir va va' perms p w : Word}
  {m m' : ℕ → ℕ → Word} {e : Option Entry}

def OpenEntry (w : Word) : Prop := isPagePresent w = true → isPageWritable w = true ∧ isPageUser w = true

theorem openEntry_table (q : ℕ) : OpenEntry (page2pa q ||| tablePerm) := by
  intro _
  rw [tableEntry_eq, writable_entry (pgoff_page2pa q), user_entry (pgoff_page2pa q)]
  decide

theorem entryOf_pageEntry (hw : OpenEntry w) (hp : isPagePresent w = true) (hps : ps < 1048576)
    (hperm : perms.toNat < 4096) :
    entryOf w (pageEntry ps perms) = some ⟨ps, isPageWritable perms, isPageUser perms⟩ := by
  obtain ⟨hw₁, hw₂⟩ := hw hp
  have hpres : isPagePresent (pageEntry ps perms) = true := present_entry
  rw [entryOf, hp, hpres, pteFrame_pageEntry hps hperm, hw₁, hw₂, pageEntry, writable_entry (pgoff_page2pa ps),
    user_entry (pgoff_page2pa ps)]
  simp

theorem entryOf_zero : entryOf w 0#32 = none := by
  rw [entryOf, present_zero, Bool.and_false]
  rfl

theorem dirWalk_frame (hp : pteTarget (m d (pdx va)) = some t) :
    (dirWalk m d va).map Entry.frame = pteTarget (m t (ptx va)) := by
  obtain ⟨hpde, hf⟩ := pteTarget_some.mp hp
  rw [dirWalk, entryOf, hpde, hf]
  cases hn : isPagePresent (m t (ptx va)) with
  | false => simp [pteTarget_absent hn]
  | true => simp [pteTarget_present hn]

theorem leaf_eq_walk (m : ℕ → ℕ → Word) (d : ℕ) (va : Word) :
    Radix.leaf pteTarget m d (pdx va) (ptx va) = (dirWalk m d va).map Entry.frame := by
  cases hp : isPagePresent (m d (pdx va)) with
  | false =>
    have hchild : Radix.child pteTarget m d (pdx va) = none := pteTarget_absent hp
    have hwalk : dirWalk m d va = none := dirWalk_none.mpr (Or.inl hp)
    rw [Radix.leaf_of_none _ _ hchild, hwalk]
    rfl
  | true =>
    have hchild : Radix.child pteTarget m d (pdx va) = some (pteFrame (m d (pdx va))) := pteTarget_present hp
    rw [Radix.leaf_of_child _ _ hchild, dirWalk_frame hchild, Radix.child]

theorem isMapped_of_walk (hd : d ∈ D) (hv : va < uTop) (hw : (dirWalk s.mem d va).map Entry.frame = some q) :
    s.IsMapped D q := by
  refine ⟨d, hd, pdx va, pdx_mem_lowDir.mpr hv, ptx va, ptx_mem_tableWords va, ?_⟩
  rw [leaf_eq_walk, hw]

/-- The hardware finds `e` at the page of `va`, and at every other page below `U_TOP` what it found before. -/
def Rewalks (d : ℕ) (va : Word) (e : Option Entry) (m m' : ℕ → ℕ → Word) : Prop :=
  ∀ va' < uTop, dirWalk m' d va' = if pgnum va' = pgnum va then e else dirWalk m d va'

theorem dirWalk_congr_page (h : pgnum va' = pgnum va) : dirWalk m d va' = dirWalk m d va := by
  rw [← dirWalk_pageAddr, h, dirWalk_pageAddr]

theorem Rewalks.same (h : ∀ va' < uTop, dirWalk m' d va' = dirWalk m d va') :
    Rewalks d va (dirWalk m d va) m m' := by
  intro va' hv'
  split
  · next he => rw [h va' hv', dirWalk_congr_page he]
  · exact h va' hv'

theorem Rewalks.after {m₁ : ℕ → ℕ → Word} (h : ∀ va' < uTop, dirWalk m₁ d va' = dirWalk m d va')
    (h' : Rewalks d va e m₁ m') :
    Rewalks d va e m m' := by
  intro va' hv'
  rw [h' va' hv', h va' hv']

theorem isTable_addTable {i f : ℕ} {g : ℕ → Word} (hd : d ∈ D) (hi : i ∈ lowDir) (habs : pteTarget (m d i) = none)
    (hw : pteTarget w = some q) (hq : q ∉ D) :
    Radix.IsTable pteTarget (Radix.setWord (Radix.setFrame m q g) d i w) D lowDir f ↔
      f = q ∨ Radix.IsTable pteTarget m D lowDir f := by
  have hchild : ∀ f ∈ D, ∀ j, Radix.child pteTarget (Radix.setWord (Radix.setFrame m q g) d i w) f j =
      if f = d ∧ j = i then some q else Radix.child pteTarget m f j := by
    intro f hf j
    rw [Radix.child_setDir, hw, Radix.child_setFrame hf hq]
  constructor
  · rintro ⟨f', hf', j, hj, hc⟩
    rw [hchild f' hf'] at hc
    split at hc
    · cases hc
      exact Or.inl rfl
    · exact Or.inr ⟨f', hf', j, hj, hc⟩
  · rintro (rfl | ⟨f', hf', j, hj, hc⟩)
    · refine ⟨d, hd, i, hi, ?_⟩
      rw [hchild d hd, if_pos ⟨rfl, rfl⟩]
    · refine ⟨f', hf', j, hj, ?_⟩
      rw [hchild f' hf', if_neg, hc]
      rintro ⟨rfl, rfl⟩
      rw [Radix.child, habs] at hc
      cases hc

section Apart

variable (ha : Radix.Apart pteTarget m D lowDir) (hd : d ∈ D) (hv : va < uTop)

include ha hd hv

theorem rewalks_setLeaf (ht : pteTarget (m d (pdx va)) = some t) (w : Word) :
    Rewalks d va (entryOf (m d (pdx va)) w) m (Radix.setWord m t (ptx va) w) := by
  intro va' hv'
  have hlow := pdx_mem_lowDir.mpr hv
  have htd := ha.not_dir d hd _ hlow t ht
  have hrow : Radix.setWord m t (ptx va) w d = m d := Radix.setWord_frame_ne _ _ (fun he => htd (he ▸ hd))
  split
  · next he =>
    have hx : pdx va' = pdx va := by rw [pdx_of_pgnum, pdx_of_pgnum, he]
    have hy : ptx va' = ptx va := by rw [ptx_of_pgnum, ptx_of_pgnum, he]
    rw [dirWalk, hrow, hx, hy, (pteTarget_some.mp ht).2, Radix.setWord_same]
  · next he =>
    refine dirWalk_congr (by rw [hrow]) (fun hp => ?_)
    by_cases hf : pteFrame (m d (pdx va')) = t
    · -- the same table, so the same entry of the directory
      have hsame := (ha.unshared d hd _ (pdx_mem_lowDir.mpr hv') d hd _ hlow t (pteTarget_some.mpr ⟨hp, hf⟩) ht).2
      rw [hf]
      refine Radix.setWord_index_ne _ _ (fun hy => he ?_)
      rw [pgnum_split, pgnum_split, hsame, hy]
    · rw [Radix.setWord_frame_ne _ _ hf]

omit hv in
theorem dirWalk_addTable (hq : q ∉ D) (hqt : ¬ Radix.IsTable pteTarget m D lowDir q)
    (hp : isPagePresent (m d (pdx va)) = false) (hw : pteFrame w = q) (hv' : va' < uTop) :
    dirWalk (Radix.setWord (Radix.setFrame m q (fun _ => 0#32)) d (pdx va) w) d va' = dirWalk m d va' := by
  have hqd : q ≠ d := fun he => hq (he ▸ hd)
  by_cases hx : pdx va' = pdx va
  · -- nothing was mapped there, and the new table is empty
    have hold : dirWalk m d va' = none := dirWalk_none.mpr (Or.inl (hx ▸ hp))
    rw [hold, dirWalk_none, hx, Radix.setWord_same, hw, Radix.setWord_frame_ne _ _ hqd, Radix.setFrame_same]
    exact Or.inr present_zero
  · refine dirWalk_congr ?_ (fun hpde => ?_)
    · rw [Radix.setWord_index_ne _ _ hx, Radix.setFrame_ne _ _ (Ne.symm hqd)]
    · have htarget := pteTarget_present hpde
      have hlow' := pdx_mem_lowDir.mpr hv'
      have htd : pteFrame (m d (pdx va')) ≠ d := fun he => ha.not_dir d hd _ hlow' _ htarget (he.symm ▸ hd)
      have htq : pteFrame (m d (pdx va')) ≠ q := fun he => hqt ⟨d, hd, _, hlow', he ▸ htarget⟩
      rw [Radix.setWord_frame_ne _ _ htd, Radix.setFrame_ne _ _ htq]

end Apart

/-! ### The lists -/

theorem pageDecref_refs {f : ℕ} (hr : Returns st (pageDecref q) s () s') (hf : f ≠ q) :
    (s'.pages f).refs = (s.pages f).refs := by
  rcases returns_pageDecref.mp hr with ⟨_, _, rfl⟩ | ⟨_, rfl⟩
  · rw [KState.pushFree_refs, if_neg hf, KState.setRefs_refs, if_neg hf]
  · rw [KState.setRefs_refs, if_neg hf]

theorem pageDecref_list (hl : s.FreeList L) (hn : q ∉ L) (hr : Returns st (pageDecref q) s () s') :
    ∃ L', s'.FreeList L' ∧ ∀ p, p ∈ L' ↔ p ∈ L ∨ (p = q ∧ (s.pages q).refs = 1#32) := by
  rcases returns_pageDecref.mp hr with ⟨hone, _, rfl⟩ | ⟨hne, rfl⟩
  · refine ⟨q :: L, hl.setRefs.pushFree hn, fun p => ?_⟩
    rw [List.mem_cons, hone]
    simp [or_comm]
  · refine ⟨L, hl.setRefs, fun p => ?_⟩
    simp [hne]

/-! ### What a call changes -/

/-- A call that works on the directory `d`: what is free or a table afterwards was so before, or is `gone` from its
place; and of the frames only these and the directories are written. -/
structure Changes (s s' : KState) (D : Finset ℕ) (L L' : List ℕ) (d : ℕ) (gone : ℕ → Prop) : Prop where
  list : s'.FreeList L'
  fate : ∀ q, q ∈ L' ∨ s'.IsTable D q ↔ q ∈ L ∨ s.IsTable D q ∨ gone q
  kept : ∀ q, q ∉ L → q ∉ D → ¬ s.IsTable D q → s'.mem q = s.mem q
  rights : (∀ i ∈ lowDir, OpenEntry (s.mem d i)) → ∀ i ∈ lowDir, OpenEntry (s'.mem d i)
  refs : ∀ f ∈ D, (s'.pages f).refs = (s.pages f).refs

namespace Changes

variable {gone : ℕ → Prop}

theorem refl (hl : s.FreeList L) : Changes s s D L L d (fun _ => False) := by
  refine ⟨hl, fun q => by simp, fun _ _ _ _ => rfl, fun h => h, fun _ _ => rfl⟩

theorem congr {gone' : ℕ → Prop} (h : Changes s s' D L L' d gone) (hg : ∀ q, gone q ↔ gone' q) :
    Changes s s' D L L' d gone' := by
  rwa [funext fun q => propext (hg q)] at h

theorem trans (h₁ : Changes s s₁ D L L₁ d (fun _ => False)) (h₂ : Changes s₁ s' D L₁ L' d gone) :
    Changes s s' D L L' d gone where
  list := h₂.list
  fate q := by
    rw [h₂.fate, ← or_assoc, h₁.fate]
    simp [or_assoc]
  kept q hl hd ht := by
    have hn : ¬ (q ∈ L₁ ∨ s₁.IsTable D q) := by
      rw [h₁.fate]
      simp [hl, ht]
    rw [not_or] at hn
    rw [h₂.kept q hn.1 hd hn.2, h₁.kept q hl hd ht]
  rights h := h₂.rights (h₁.rights h)
  refs f hf := (h₂.refs f hf).trans (h₁.refs f hf)

theorem leaf (h : Balanced s D pool L) (hd : d ∈ D) (hv : va < uTop) (ht : pteTarget (s.mem d (pdx va)) = some t)
    (hm : s'.mem = s.mem ∨ ∃ w, s'.mem = Radix.setWord s.mem t (ptx va) w) (hl : s'.FreeList L')
    (hg : ∀ q, q ∈ L' ↔ q ∈ L ∨ gone q) (hr : ∀ f ∈ D, (s'.pages f).refs = (s.pages f).refs) :
    Changes s s' D L L' d gone := by
  have hlow := pdx_mem_lowDir.mpr hv
  have htd := h.apart.not_dir d hd _ hlow t ht
  have hrow : ∀ f, f ≠ t → s'.mem f = s.mem f := by
    intro f hf
    rcases hm with hm | ⟨w, hm⟩
    · rw [hm]
    · rw [hm, Radix.setWord_frame_ne _ _ hf]
  have hdir : ∀ f ∈ D, s'.mem f = s.mem f := fun f hf => hrow f (fun he => htd (he ▸ hf))
  have htab : ∀ q, s'.IsTable D q ↔ s.IsTable D q := by
    intro q
    refine exists_congr fun f => and_congr_right fun hf => exists_congr fun i => and_congr_right fun _ => ?_
    rw [Radix.child, hdir f hf, Radix.child]
  refine ⟨hl, fun q => ?_, fun q _ _ hn => hrow q (fun he => hn ⟨d, hd, _, hlow, he ▸ ht⟩), fun ho i hi => ?_, hr⟩
  · rw [hg, htab, or_assoc, or_comm (a := gone q)]
  · rw [hdir d hd]
    exact ho i hi

end Changes

theorem getPageTable_changes (h : Balanced s D pool L) (hd : kernFrame pgdir ∈ D) (ha : pgoff pgdir = 0)
    (hv : va < uTop)
    {create : Bool} (hr : Returns st (getPageTable pgdir va create) s p s₁) :
    ∃ L₁, Changes s s₁ D L L₁ (kernFrame pgdir) (fun _ => False) ∧
      (∀ va' < uTop, dirWalk s₁.mem (kernFrame pgdir) va' = dirWalk s.mem (kernFrame pgdir) va') ∧
      ∀ q, q ∉ L → (s₁.pages q).refs = (s.pages q).refs := by
  obtain ⟨_, ⟨hp, rfl, rfl⟩ | ⟨hp, _, q, hl, rfl, rfl, _⟩⟩ := (returns_getPageTable ha).mp hr
  · exact ⟨L, .refl h.chain, fun _ _ => rfl, fun _ _ => rfl⟩
  · have hchain := h.chain
    rw [KState.FreeList, hl] at hchain
    obtain ⟨L₁, rfl, _⟩ := Chain.some_iff.mp hchain
    have hq : q ∈ q :: L₁ := List.mem_cons_self
    have hqd := h.not_dir hq
    have hqt := h.not_table hq
    obtain ⟨_, hlt, hlt'⟩ := h.pool_lt q (h.free_pool q hq)
    have hmem : (s.newTable pgdir va q).mem = Radix.setWord (Radix.setFrame s.mem q (fun _ => 0#32))
      (kernFrame pgdir) (pdx va) (page2pa q ||| tablePerm) :=
      KState.newTable_mem (kernFrame_kva hlt hlt')
    have hw := pteFrame_tableEntry hlt'
    refine ⟨L₁, ⟨h.chain.newTable, fun f => ?_, fun f hf hfd hft => ?_, fun ho i hi => ?_, fun f hf => ?_⟩,
      fun va' hv' => ?_, fun f hf => ?_⟩
    · have htab : (s.newTable pgdir va q).IsTable D f ↔ f = q ∨ s.IsTable D f := by
        rw [KState.IsTable, hmem]
        exact isTable_addTable hd (pdx_mem_lowDir.mpr hv) (pteTarget_absent hp)
          (pteTarget_some.mpr ⟨present_tableEntry q, hw⟩) hqd
      rw [htab, List.mem_cons]
      simp only [or_false]
      rw [or_left_comm, or_assoc]
    · have hne : f ≠ q := fun he => hf (he ▸ hq)
      have hned : f ≠ kernFrame pgdir := fun he => hfd (he ▸ hd)
      rw [hmem, Radix.setWord_frame_ne _ _ hned, Radix.setFrame_ne _ _ hne]
    · have hne : kernFrame pgdir ≠ q := fun he => hqd (he ▸ hd)
      rw [hmem, Radix.setWord]
      split
      · exact openEntry_table q
      · rw [Radix.setFrame_ne _ _ hne]
        exact ho i hi
    · have hne : f ≠ q := fun he => hqd (he ▸ hf)
      rw [KState.newTable_refs, if_neg hne]
    · rw [hmem]
      exact dirWalk_addTable h.apart hd hqd hqt hp hw hv'
    · have hne : f ≠ q := fun he => hf (he ▸ hq)
      rw [KState.newTable_refs, if_neg hne]

theorem Balanced.pteAddr_iff {j : ℕ} (h : Balanced s D pool L) (ht : s.IsTable D t) (hj : j ∈ tableWords)
    (hpos : 0 < ps)
    (hlt : ps < 1048576) : pteAddr (s.mem t j) = page2pa ps ↔ pteTarget (s.mem t j) = some ps := by
  rw [pteTarget_some]
  constructor
  · intro he
    have hp : isPagePresent (s.mem t j) = true := by
      by_contra hne
      have hz := h.absent_zero t ht j hj (Bool.not_eq_true _ ▸ hne)
      have hps : ps = 0 := page2pa_inj hlt (by omega) (he.symm.trans hz)
      omega
    exact ⟨hp, by rw [pteFrame, he, pgnum_page2pa hlt]⟩
  · rintro ⟨_, hf⟩
    exact pteAddr_of_frame hf

section Small

variable (h : Balanced s D pool L) (hs : ∀ q ∈ pool, q < 65535) (hd : kernFrame pgdir ∈ D) (hv : va < uTop)

include h hs hd hv

theorem Balanced.ptePtr_ne (hp : isPagePresent (s.pdeAt pgdir va) = true) : s.ptePtr pgdir va ≠ 0#32 := by
  obtain ⟨ht, _, hf, _⟩ := h.table hd hv hp
  have hlt := hs _ (h.table_used _ ht).1
  intro h0
  have hzero : kernFrame 0#32 = 65536 := by decide
  rw [h0] at hf
  omega

theorem Balanced.mappedPage_iff (hp : isPagePresent (s.pdeAt pgdir va) = true) : s.mappedPage pgdir va = some q ↔
    (dirWalk s.mem (kernFrame pgdir) va).map Entry.frame = some q := by
  obtain ⟨ht, hc, hf, hi⟩ := h.table hd hv hp
  have h0 := h.ptePtr_ne hs hd hv hp
  have hword : s.pteAt pgdir va = s.mem (pteFrame (s.pdeAt pgdir va)) (ptx va) := by
    rw [KState.pteAt, KState.wordAt, hf, hi]
  rw [dirWalk_frame hc, mappedPage_some, pteTarget_some, hword]
  constructor
  · rintro ⟨_, hpres, _, hq⟩
    exact ⟨hpres, hq⟩
  · rintro ⟨hpres, hq⟩
    have hmapped := h.mapped hd hv hp (by rw [hword]; exact hpres)
    have hlt := (h.pool_lt _ (h.leaf_used _ hmapped).1).2.1
    rw [hword] at hlt
    exact ⟨h0, hpres, hq ▸ hlt, hq⟩

theorem removePage_list (ha : pgoff pgdir = 0) (hr : Returns st (removePage pgdir va) s () s') :
    ∃ L', s'.FreeList L' ∧ (∀ q, q ∈ L' ↔ q ∈ L ∨ (dirWalk s.mem (kernFrame pgdir) va).map Entry.frame = some q ∧
      (s.pages q).refs = 1#32) ∧ ∀ f ∈ D, (s'.pages f).refs = (s.pages f).refs := by
  obtain ⟨hp, _, hr⟩ := (returns_removePage ha).mp hr
  have hmapped := fun q => h.mappedPage_iff hs hd hv (q := q) hp
  rcases hr with ⟨hm, rfl⟩ | ⟨q, s₁, hm, _, hdec, rfl⟩
  · refine ⟨L, h.chain, fun q => (or_iff_left ?_).symm, fun _ _ => rfl⟩
    rw [← hmapped, hm]
    simp
  · have hwalk := (hmapped q).mp hm
    obtain ⟨_, hq, hqd, _⟩ := h.leaf_used q (isMapped_of_walk hd hv hwalk)
    obtain ⟨L', hl, hmem⟩ := pageDecref_list (s := s.setWord _ _ 0#32) h.chain.setMem hq hdec
    refine ⟨L', hl, fun p => ?_, fun f hf => ?_⟩
    · rw [hmem, hwalk, Option.some.injEq]
      apply or_congr_right
      constructor
      · rintro ⟨rfl, hone⟩
        exact ⟨rfl, hone⟩
      · rintro ⟨rfl, hone⟩
        exact ⟨rfl, hone⟩
    · have hne : f ≠ q := fun he => hqd (he ▸ hf)
      have hrefs := pageDecref_refs hdec hne
      exact hrefs

theorem removePage_changes (ha : pgoff pgdir = 0) (hr : Returns st (removePage pgdir va) s () s') :
    ∃ L', Changes s s' D L L' (kernFrame pgdir) (fun q => (dirWalk s.mem (kernFrame pgdir) va).map Entry.frame =
    some q ∧
      (s.pages q).refs = 1#32) ∧ Rewalks (kernFrame pgdir) va none s.mem s'.mem := by
  obtain ⟨L', hl, hmem, hrefs⟩ := removePage_list h hs hd hv ha hr
  obtain ⟨hp, _, hr⟩ := (returns_removePage ha).mp hr
  obtain ⟨_, hc, hf, hi⟩ := h.table hd hv hp
  rcases hr with ⟨hm, rfl⟩ | ⟨q, s₁, _, _, hdec, rfl⟩
  · have hnone : dirWalk s'.mem (kernFrame pgdir) va = none := by
      cases he : dirWalk s'.mem (kernFrame pgdir) va with
      | none => rfl
      | some e =>
        rw [(h.mappedPage_iff hs hd hv (q := e.frame) hp).mpr (by rw [he]; rfl)] at hm
        cases hm
    refine ⟨L', .leaf h hd hv hc (Or.inl rfl) hl hmem hrefs, ?_⟩
    rw [← hnone]
    exact .same (fun _ _ => rfl)
  · rw [hf, hi] at hdec
    have hm : (s₁.dropTlb va).mem = Radix.setWord s.mem (pteFrame (s.pdeAt pgdir va)) (ptx va) 0#32 :=
      (pageDecref_mem hdec).1
    refine ⟨L', .leaf h hd hv hc (Or.inr ⟨_, hm⟩) hl hmem hrefs, ?_⟩
    rw [hm, ← entryOf_zero (w := s.mem (kernFrame pgdir) (pdx va))]
    exact rewalks_setLeaf h.apart hd hv hc 0#32

/-- What `insert_page` leaves: an entry of the same page keeps its rights, unless those asked for are none at all. -/
def insertedEntry (old : Option Entry) (ps : ℕ) (perms : Word) : Option Entry :=
  if old.map Entry.frame = some ps ∧ perms ≠ 0#32 then old else some ⟨ps, isPageWritable perms, isPageUser perms⟩

theorem inserts_changes (ha : pgoff pgdir = 0) (hu : Usable s D pool L ps) (hperm : perms.toNat < 4096)
    (hp : isPagePresent (s.pdeAt pgdir va) = true) (ho : OpenEntry (s.pdeAt pgdir va))
    (hr : Inserts st pgdir ps va perms (s.ptePtr pgdir va) s s') :
    ∃ L', Changes s s' D L L' (kernFrame pgdir) (fun q => (dirWalk s.mem (kernFrame pgdir) va).map Entry.frame =
    some q ∧
      q ≠ ps ∧ (s.pages q).refs = 1#32) ∧
      Rewalks (kernFrame pgdir) va (insertedEntry (dirWalk s.mem (kernFrame pgdir) va) ps perms) s.mem s'.mem := by
  obtain ⟨ht, hc, hf, hi⟩ := h.table hd hv hp
  obtain ⟨hpos, _, hlt⟩ := h.pool_lt ps hu.pool
  have hsame : pteAddr (s.wordAt (s.ptePtr pgdir va)) = page2pa ps ↔
      (dirWalk s.mem (kernFrame pgdir) va).map Entry.frame = some ps := by
    rw [dirWalk_frame hc, KState.wordAt, hf, hi]
    exact h.pteAddr_iff ht (ptx_mem_tableWords va) hpos hlt
  have hentry : entryOf (s.mem (kernFrame pgdir) (pdx va)) (pageEntry ps perms) =
      some ⟨ps, isPageWritable perms, isPageUser perms⟩ := entryOf_pageEntry ho hp hlt hperm
  have hwrite : s'.mem = Radix.setWord s.mem (pteFrame (s.pdeAt pgdir va)) (ptx va) (pageEntry ps perms) →
      ¬ ((dirWalk s.mem (kernFrame pgdir) va).map Entry.frame = some ps ∧ perms ≠ 0#32) →
      Rewalks (kernFrame pgdir) va (insertedEntry (dirWalk s.mem (kernFrame pgdir) va) ps perms) s.mem s'.mem := by
    intro hm hn
    rw [insertedEntry, if_neg hn, hm, ← hentry]
    exact rewalks_setLeaf h.apart hd hv hc _
  obtain ⟨⟨rfl, he, hz⟩ | ⟨hm, hz⟩, _⟩ := inserts_mem ha rfl hr
  · refine ⟨L, .leaf h hd hv hc (Or.inl rfl) h.chain (fun q => ?_) (fun _ _ => rfl), ?_⟩
    · rw [hsame.mp he, Option.some.injEq]
      refine (or_iff_left ?_).symm
      rintro ⟨rfl, hne, _⟩
      exact hne rfl
    · rw [insertedEntry, if_pos ⟨hsame.mp he, hz⟩]
      exact .same (fun _ _ => rfl)
  · rw [hf, hi] at hm
    have hwalk := hwrite hm (fun hb => hb.2 (hz (hsame.mpr hb.1)))
    have hleaf : ∀ {L' gone}, s'.FreeList L' → (∀ q, q ∈ L' ↔ q ∈ L ∨ gone q) →
        (∀ f ∈ D, (s'.pages f).refs = (s.pages f).refs) → Changes s s' D L L' (kernFrame pgdir) gone :=
      fun hl hg hr => .leaf h hd hv hc (Or.inr ⟨_, hm⟩) hl hg hr
    have hother : ∀ f ∈ D, f ≠ ps := fun f hf he => hu.not_dir (he ▸ hf)
    cases hr with
    | already he hp' => exact absurd (hz he) hp'
    | rewritten he hp' hcl =>
      refine ⟨L, hleaf h.chain (fun q => ?_) (fun _ _ => rfl), hwalk⟩
      rw [hsame.mp he, Option.some.injEq]
      refine (or_iff_left ?_).symm
      rintro ⟨rfl, hne, _⟩
      exact hne rfl
    | added he hn hcl =>
      refine ⟨L, hleaf h.chain.setRefs.setMem (fun q => ?_) (fun f hf => ?_), hwalk⟩
      swap
      · rw [KState.setMem_pages, KState.setRefs_refs, if_neg (hother f hf)]
      have hold : dirWalk s.mem (kernFrame pgdir) va = none := by
        rw [KState.wordAt, hf, hi] at hn
        exact dirWalk_none.mpr (Or.inr hn)
      rw [hold]
      simp
    | replaced he hn hrem hcl =>
      obtain ⟨L', hl, hmem, hrefs⟩ := removePage_list h hs hd hv ha hrem
      refine ⟨L', hleaf hl.setRefs.setMem (fun q => ?_) (fun f hf => ?_), hwalk⟩
      swap
      · rw [KState.setMem_pages, KState.setRefs_refs, if_neg (hother f hf), hrefs f hf]
      rw [hmem]
      refine or_congr_right (and_congr_right fun hq => (and_iff_right ?_).symm)
      rintro rfl
      exact he (hsame.mpr hq)

theorem insertPage_changes (ha : pgoff pgdir = 0) (hu : Usable s D pool L ps) (hperm : perms.toNat < 4096)
    (ho : ∀ i ∈ lowDir, OpenEntry (s.mem (kernFrame pgdir) i)) {r : Int}
    (hr : Returns st (insertPage pgdir ps va perms) s r s') : r = 0 ∧
    ∃ L', Changes s s' D L L' (kernFrame pgdir) (fun q => (dirWalk s.mem (kernFrame pgdir) va).map Entry.frame =
    some q ∧
      q ≠ ps ∧ (s.pages q).refs = 1#32) ∧
      Rewalks (kernFrame pgdir) va (insertedEntry (dirWalk s.mem (kernFrame pgdir) va) ps perms) s.mem s'.mem := by
  obtain ⟨p, s₁, hget, hr⟩ := returns_insertPage.mp hr
  obtain ⟨L₁, hgrow, hwalk, hrefs⟩ := getPageTable_changes h hd ha hv hget
  obtain ⟨L₁', hready⟩ := getPageTable_balanced h hd ha hv hget
  obtain rfl : L₁' = L₁ := Chain.unique hready.balanced.chain hgrow.list
  have hb := hready.balanced
  have hp := hready.present
  have hptr := hready.ptr
  have hu₁ : Usable s₁ D pool L₁' ps := by
    refine ⟨hu.pool, fun hm => hu.used (hready.sub ps hm), hu.not_dir, fun ht =>
      hu.not_table (hready.table ps hu.used ht)⟩
  rcases hr with ⟨h0, _, _⟩ | ⟨_, hr0, _, hins⟩
  · exact absurd (hptr.symm.trans h0) (hb.ptePtr_ne hs hd hv hp)
  · rw [hptr] at hins
    obtain ⟨L', hdone, hwalk'⟩ := inserts_changes hb hs hd hv ha hu₁ hperm hp
      (hgrow.rights ho _ (pdx_mem_lowDir.mpr hv)) hins
    rw [hwalk va hv] at hdone hwalk'
    refine ⟨hr0, L', (hgrow.trans hdone).congr (fun q => ?_), hwalk'.after hwalk⟩
    refine and_congr_right fun hq => and_congr_right fun _ => ?_
    rw [hrefs q (h.leaf_used q (isMapped_of_walk hd hv hq)).2.1]

end Small

end Cezos
