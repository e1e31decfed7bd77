import Cezos.Kernel.VmRuns
import Cezos.Lib.Spaces

namespace Cezos

open Lib

/-- The address spaces of the tasks, by the number of the page, over the pages that `page_alloc` hands out. -/
abbrev VmSpaces := Spaces ℕ ℕ Entry ℕ

def VmCall.apply (w : VmSpaces) : VmCall → VmSpaces
  | .pageAlloc ps => { w with held := insert ps w.held }
  | .freePage ps => { w with held := w.held.erase ps }
  | .procInitVm task => w.start task
  | .insertPage task ps va perms =>
    w.set Entry.frame userPages task (pgnum va) (insertedEntry (w.shows task (pgnum va)) ps perms)
  | .removePage task va => w.set Entry.frame userPages task (pgnum va) none

def VmCall.Allowed (w : VmSpaces) : VmCall → Prop
  | .pageAlloc ps => ps ∉ w.held
  | .freePage ps => ps ∈ w.held ∧ Spaces.uses Entry.frame userPages w.started w.shows ps = 0
  | .procInitVm task => task ∉ w.started
  | .insertPage task ps va _ => task ∈ w.started ∧ ps ∈ w.held ∧ pgnum va ∈ userPages
  | .removePage task va => task ∈ w.started ∧ pgnum va ∈ userPages

def SpaceStep (w : VmSpaces) (c : VmCall) (w' : VmSpaces) : Prop := c.Allowed w ∧ w' = c.apply w

variable {st : Bool} {s s₀ s₁ s' : KState} {x y : TaskSession} {w w' : VmSpaces} {pool given : Finset ℕ}
    {L L' : List ℕ}
  {c : VmCall} {cs : List VmCall} {q task kf gone v ps : ℕ} {m m₀ : ℕ → ℕ → Word} {d : ℕ} {va perms : Word}
  {old : Option Entry}

theorem refs_eq_one {v : Word} : v = 1#32 ↔ v.toNat = 1 := by
  rw [← BitVec.toNat_inj]
  rfl

theorem insertedEntry_frame (old : Option Entry) (ps : ℕ) (perms : Word) :
    (insertedEntry old ps perms).map Entry.frame = some ps := by
  rw [insertedEntry]
  split
  · next h => exact h.1
  · rfl

/-- The machine shows what the address spaces say: the pages held are those that their callers own, and the hardware
finds
in the directory of a task what its space shows. -/
structure Shows (x : TaskSession) (w : VmSpaces) : Prop where
  started : w.started = x.started
  held : ∀ q, q ∈ w.held ↔ x.Owns x.dirs q
  walk : ∀ task ∈ x.started, ∀ va < uTop, dirWalk x.s.mem (x.dir task) va = w.shows task (pgnum va)

theorem newDir_absent (h : KernWindow s kf gone pool) : ∀ i ∈ lowDir, isPagePresent (taskFrame s kf ps i) =
    false := by
  intro i hl
  have hne : i ≠ pdx uVirtualPageTable := by
    rintro rfl
    simp [lowDir, pdx_eq, uVirtualPageTable_eq] at hl
  rw [taskFrame, if_neg hne]
  exact h.empty i hl

theorem isTable_newDir {D : Finset ℕ} {g : ℕ → Word} (hd : ps ∉ D) (hz : ∀ i ∈ lowDir, isPagePresent (g i) = false) :
    Radix.IsTable pteTarget (Radix.setFrame m ps g) (insert ps D) lowDir q ↔
      Radix.IsTable pteTarget m D lowDir q := by
  constructor
  · rintro ⟨f, hf, i, hi, hc⟩
    rcases Finset.mem_insert.mp hf with rfl | hf
    · have habs : pteTarget (g i) = none := pteTarget_absent (hz i hi)
      rw [Radix.child, Radix.setFrame_same, habs] at hc
      cases hc
    · have hne : f ≠ ps := fun he => hd (he ▸ hf)
      rw [Radix.child_setFrame_of_ne hne] at hc
      exact ⟨f, hf, i, hi, hc⟩
  · rintro ⟨f, hf, i, hi, hc⟩
    have hne : f ≠ ps := fun he => hd (he ▸ hf)
    refine ⟨f, Finset.mem_insert_of_mem hf, i, hi, ?_⟩
    rw [Radix.child_setFrame_of_ne hne, hc]

namespace Shows

theorem uses_eq (h : Shows x w) (q : ℕ) : Spaces.uses Entry.frame userPages w.started w.shows q = x.seen q := by
  rw [Spaces.uses, h.started, TaskSession.seen]
  apply tally_congr
  rintro ⟨task, v⟩ hc
  obtain ⟨ht, hv⟩ := Finset.mem_product.mp hc
  obtain ⟨hlt, _⟩ := leaf_pageAddr x.s.mem (x.dir task) hv
  have hpg : pgnum (pageAddr v) = v := pgnum_pageAddr (userPages_lt hv)
  simp only [h.walk task ht _ hlt, hpg]

theorem refs_eq (h : Shows x w) (hi : VmInv m₀ kf gone x pool L) (hq : q ∈ w.held) :
    (x.s.pages q).refs.toNat = Spaces.uses Entry.frame userPages w.started w.shows q := by
  have ho := (h.held q).mp hq
  have hu := ho.usable hi.balanced hi.given
  have htable : x.s.pdeRefs x.dirs q = 0 := Radix.tableRefs_eq_zero.mpr hu.not_table
  rw [hi.balanced.toNat_refs hu.pool hu.not_dir rfl, htable, Nat.zero_add, h.uses_eq, hi.seen_eq]

end Shows

theorem Session.owns_iff {x : Session} {D : Finset ℕ} (hl : x.s.FreeList L) :
    x.Owns D q ↔ q ∈ x.given ∧ q ∉ D ∧ ¬ (q ∈ L ∨ x.s.IsTable D q) := by
  rw [not_or, ← onFreeList_iff hl]
  constructor
  · intro h
    exact ⟨h.given, h.not_dir, h.used, h.not_table⟩
  · rintro ⟨h₁, h₂, h₃, h₄⟩
    exact ⟨h₁, h₃, h₂, h₄⟩

namespace Shows

variable (h : Shows x w) (hi : VmInv m₀ kf gone x pool L)

include h hi

omit hi in
theorem after {f : ℕ → ℕ → Option Entry} {held : Finset ℕ} (he : Effect x.dirs pool d x.s s') (hl : s'.FreeList L')
    (hw : ∀ task ∈ x.started, ∀ va < uTop, dirWalk s'.mem (x.dir task) va = f task (pgnum va))
    (ho : ∀ q, q ∈ held ↔ q ∈ given ∧ q ∉ x.dirs ∧ ¬ (q ∈ L' ∨ s'.IsTable x.dirs q)) :
    Shows ⟨⟨s', given⟩, x.started⟩ ⟨w.started, f, held⟩ := by
  refine ⟨h.started, fun q => ?_, fun task ht va hv => ?_⟩
  · have hown := Session.owns_iff (x := ⟨s', given⟩) (D := x.dirs) (q := q) hl
    rw [ho, VmInv.dirs_eq he given]
    exact hown.symm
  · rw [VmInv.dir_eq he given]
    exact hw task ht va hv

theorem pageAlloc {flags : Word} (hr : Returns st (Cezos.pageAlloc flags) x.s ps s') :
    SpaceStep w (.pageAlloc ps) (VmCall.apply w (.pageAlloc ps)) ∧
      Shows ⟨⟨s', insert ps x.given⟩, x.started⟩ (VmCall.apply w (.pageAlloc ps)) := by
  obtain ⟨L', rfl, hn, hi', he, htab, _⟩ := hi.pageAlloc hr
  have hd : ps ∉ x.dirs := hi.balanced.not_dir List.mem_cons_self
  have hnt := hi.balanced.not_table (List.mem_cons_self (a := ps))
  have hown : ∀ q, q ∈ w.held ↔ q ∈ x.given ∧ q ∉ x.dirs ∧ ¬ (q ∈ ps :: L' ∨ x.s.IsTable x.dirs q) :=
    fun q => (h.held q).trans (Session.owns_iff hi.balanced.chain)
  refine ⟨⟨?_, rfl⟩, h.after he hi'.balanced.chain (fun task ht va hv => ?_) (fun q => ?_)⟩
  · rw [VmCall.Allowed, hown]
    simp
  · rw [he.dirWalk_eq (TaskSession.dir_mem ht) (fun he => hd (he ▸ TaskSession.dir_mem ht)) hv]
    exact h.walk task ht va hv
  · rw [Finset.mem_insert, Finset.mem_insert, hown, htab, List.mem_cons]
    by_cases hq : q = ps
    · subst hq
      simp [hd, hn, hnt]
    · simp [hq]

theorem freePage (hown : x.Owns x.dirs ps) (hr : Returns st (Cezos.freePage ps) x.s () s') :
    SpaceStep w (.freePage ps) (VmCall.apply w (.freePage ps)) ∧
      Shows ⟨⟨s', x.given⟩, x.started⟩ (VmCall.apply w (.freePage ps)) := by
  obtain ⟨hi', he, hm⟩ := hi.freePage hown hr
  have hheld := (h.held ps).mpr hown
  refine ⟨⟨⟨hheld, ?_⟩, rfl⟩, h.after he hi'.balanced.chain (fun task ht va hv => ?_) (fun q => ?_)⟩
  · rw [← h.refs_eq hi hheld, (returns_freePage.mp hr).1]
    rfl
  · rw [hm]
    exact h.walk task ht va hv
  · have htab : s'.IsTable x.dirs q ↔ x.s.IsTable x.dirs q := by rw [KState.IsTable, hm, KState.IsTable]
    rw [Finset.mem_erase, h.held, Session.owns_iff hi.balanced.chain, htab, List.mem_cons]
    tauto

section OnTask

variable (ht : task ∈ x.started)

include ht

theorem put {e : Option Entry} {gone : ℕ → Prop} (he : Effect x.dirs pool (x.dir task) x.s s')
    (hc : Changes x.s s' x.dirs L L' (x.dir task) gone) (hw : Rewalks (x.dir task) va e x.s.mem s'.mem)
    (hg : ∀ q ∈ w.held, gone q ↔ (w.shows task (pgnum va)).map Entry.frame = some q ∧
      Spaces.uses Entry.frame userPages w.started (w.put task (pgnum va) e) q = 0) :
    Shows ⟨⟨s', x.given⟩, x.started⟩ (w.set Entry.frame userPages task (pgnum va) e) := by
  refine h.after he hc.list (fun t hts va' hv' => ?_) (fun q => ?_)
  · by_cases htt : t = task
    · subst htt
      rw [hw va' hv']
      split
      · next hp => rw [hp, Spaces.put_same]
      · next hp => rw [Spaces.put_place_ne w t e hp, h.walk t hts va' hv']
    · rw [Spaces.put_task_ne w _ e htt, ← h.walk t hts va' hv']
      exact he.dirWalk_eq (TaskSession.dir_mem hts) (fun hd => htt (hi.distinct t hts task ht hd)) hv'
  · have hmem : q ∈ (w.set Entry.frame userPages task (pgnum va) e).held ↔ q ∈ w.held ∧
        ((w.shows task (pgnum va)).map Entry.frame = some q →
          Spaces.uses Entry.frame userPages w.started (w.put task (pgnum va) e) q ≠ 0) := Spaces.mem_set_held
    have hown := (h.held q).trans (Session.owns_iff hi.balanced.chain)
    rw [hc.fate]
    refine hmem.trans ?_
    constructor
    · rintro ⟨hq, hu⟩
      have hn : ¬ gone q := fun hgq => hu ((hg q hq).mp hgq).1 ((hg q hq).mp hgq).2
      have := hown.mp hq
      tauto
    · rintro ⟨hgiven, hd, hn⟩
      have hq : q ∈ w.held := hown.mpr (by tauto)
      have hgq := hg q hq
      exact ⟨hq, by tauto⟩

variable (hv : va < uTop)

include hv

theorem insertPage (hown : x.Owns x.dirs ps) (hperm : perms.toNat < 4096) {r : Int}
    (hr : Returns st (Cezos.insertPage (x.s.taskPgdir task) ps va perms) x.s r s') :
    SpaceStep w (.insertPage task ps va perms) (VmCall.apply w (.insertPage task ps va perms)) ∧
      Shows ⟨⟨s', x.given⟩, x.started⟩ (VmCall.apply w (.insertPage task ps va perms)) := by
  obtain ⟨_, L', _, he, hc, hw⟩ := hi.insertPage ht hv hown hperm hr
  have hts : task ∈ w.started := h.started ▸ ht
  have hold := h.walk task ht va hv
  rw [hold] at hc hw
  refine ⟨⟨⟨hts, (h.held ps).mpr hown, pgnum_mem_userPages.mpr hv⟩, rfl⟩, h.put hi ht he hc hw (fun q hq => ?_)⟩
  have hcount := Spaces.uses_put Entry.frame hts (pgnum_mem_userPages.mpr hv)
    (insertedEntry (w.shows task (pgnum va)) ps perms) q
  have hremoved := Spaces.uses_put Entry.frame hts (pgnum_mem_userPages.mpr hv) none q
  have hrefs := h.refs_eq hi hq
  refine and_congr_right (fun hframe => ?_)
  rw [if_pos hframe, ← hrefs] at hcount hremoved
  simp only [insertedEntry_frame, Option.some.injEq] at hcount
  rw [if_neg (by simp)] at hremoved
  rw [refs_eq_one]
  by_cases hps : ps = q
  · rw [if_pos hps] at hcount
    -- the page is still shown, so the counter is not 0
    constructor
    · exact fun hne => absurd hps.symm hne.1
    · intro h0
      omega
  · rw [if_neg hps] at hcount
    rw [and_iff_right (fun he => hps he.symm)]
    omega

theorem removePage (hr : Returns st (Cezos.removePage (x.s.taskPgdir task) va) x.s () s') :
    SpaceStep w (.removePage task va) (VmCall.apply w (.removePage task va)) ∧
      Shows ⟨⟨s', x.given⟩, x.started⟩ (VmCall.apply w (.removePage task va)) := by
  obtain ⟨L', _, he, hc, hw⟩ := hi.removePage ht hv hr
  have hts : task ∈ w.started := h.started ▸ ht
  have hold := h.walk task ht va hv
  rw [hold] at hc
  refine ⟨⟨⟨hts, pgnum_mem_userPages.mpr hv⟩, rfl⟩, h.put hi ht he hc hw (fun q hq => ?_)⟩
  have hcount := Spaces.uses_put Entry.frame hts (pgnum_mem_userPages.mpr hv) none q
  have hrefs := h.refs_eq hi hq
  refine and_congr_right (fun hframe => ?_)
  rw [if_pos hframe, ← hrefs, if_neg (by simp)] at hcount
  rw [refs_eq_one]
  omega

end OnTask

theorem procInitVm (hn : task ∉ x.started) (hr : Returns st (Cezos.procInitVm task) x.s () s') :
    SpaceStep w (.procInitVm task) (VmCall.apply w (.procInitVm task)) ∧
      Shows ⟨⟨s', x.given⟩, insert task x.started⟩ (VmCall.apply w (.procInitVm task)) := by
  obtain ⟨ps, L', rfl, hi', rfl, hd, hnL, hk, hmem⟩ := hi.procInitVm hn hr
  have hn' : task ∉ w.started := h.started ▸ hn
  have hnt : ¬ x.s.IsTable x.dirs ps := hi.balanced.not_table List.mem_cons_self
  refine ⟨⟨hn', rfl⟩, congrArg (insert task) h.started, fun q => ?_, fun t ht va hv => ?_⟩
  · have hown : Session.Owns ⟨x.s.taskDir task ps, x.given⟩ (insert ps x.dirs) q ↔ _ :=
      Session.owns_iff hi'.balanced.chain
    have htab : (x.s.taskDir task ps).IsTable (insert ps x.dirs) q ↔ x.s.IsTable x.dirs q := by
      rw [KState.IsTable, hmem]
      exact isTable_newDir hd (newDir_absent hi.window)
    have hheld := (h.held q).trans (Session.owns_iff hi.balanced.chain)
    rw [htab] at hown
    rw [VmInv.dirs_started hk hn hd]
    refine hheld.trans (Iff.trans ?_ hown.symm)
    by_cases hq : q = ps
    · subst hq
      simp
    · simp [hq]
  · rcases VmInv.dir_started hk hn hd ht x.given (insert task x.started) with ⟨rfl, he⟩ | ⟨hs, he, hne⟩
    · have habs : isPagePresent (taskFrame x.s kf ps (pdx va)) = false :=
        newDir_absent hi.window _ (pdx_mem_lowDir.mpr hv)
      have hnone : dirWalk (x.s.taskDir t ps).mem ps va = none := by
        rw [hmem, dirWalk_none, Radix.setFrame_same]
        exact Or.inl habs
      rw [he, hnone]
      exact (Spaces.start_same w t _).symm
    · have hne' : t ≠ task := fun he => hn (he ▸ hs)
      have hshow := congrFun (Spaces.start_ne w hne') (pgnum va)
      rw [he, VmCall.apply, hshow, ← h.walk t hs va hv, hmem]
      refine dirWalk_congr (by rw [Radix.setFrame_ne _ _ hne]) (fun hp => ?_)
      have htable : x.s.IsTable x.dirs (pteFrame (x.s.mem (x.dir t) (pdx va))) :=
        ⟨_, TaskSession.dir_mem hs, _, pdx_mem_lowDir.mpr hv, pteTarget_present hp⟩
      have hpt : pteFrame (x.s.mem (x.dir t) (pdx va)) ≠ ps := fun he => hnt (he ▸ htable)
      rw [Radix.setFrame_ne _ _ hpt]

end Shows

theorem VmStep.shows (hc : VmStep st x c y) (hi : VmInv m₀ kf gone x pool L) (h : Shows x w) :
    SpaceStep w c (c.apply w) ∧ Shows y (c.apply w) := by
  cases hc with
  | pageAlloc flags ps hr => exact h.pageAlloc hi hr
  | freePage ps ho hr => exact h.freePage hi ho hr
  | procInitVm task hn hr => exact h.procInitVm hi hn hr
  | insertPage task ps va perms r ht ho hv hp hr => exact h.insertPage hi ht hv ho hp hr
  | removePage task va ht hv hp hr => exact h.removePage hi ht hv hr

end Cezos
