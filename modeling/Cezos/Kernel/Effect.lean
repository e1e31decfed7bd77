import Cezos.Kernel.FrameInv

namespace Cezos

open Lib

structure Effect (D pool : Finset ℕ) (d : ℕ) (s s' : KState) : Prop where
  count : s'.pagesCount = s.pagesCount
  kern : s'.kernPageDirectory = s.kernPageDirectory
  loaded : s'.cr3 = s.cr3
  tasks : s'.taskPgdir = s.taskPgdir
  image : s'.bootNextFree = s.bootNextFree
  pages : ∀ q, q ∉ pool → s'.pages q = s.pages q
  outside : ∀ f, f ∉ pool → f ∉ D → s'.mem f = s.mem f
  high : ∀ f ∈ D, ∀ i, i ∉ lowDir → s'.mem f i = s.mem f i
  others : ∀ f ∈ D, f ≠ d → s'.mem f = s.mem f
  tables : ∀ f ∈ D, f ≠ d → ∀ i ∈ lowDir, ∀ t, pteTarget (s.mem f i) = some t → s'.mem t = s.mem t

namespace Effect

variable {s s' s₁ s₂ : KState} {D pool : Finset ℕ} {L : List ℕ} {owed : ℕ → Word} {q d t i j : ℕ} {w : Word}

theorem of_mem_eq (hm : s'.mem = s.mem) (hp : ∀ q, q ∉ pool → s'.pages q = s.pages q)
    (hc : s'.pagesCount = s.pagesCount) (hk : s'.kernPageDirectory = s.kernPageDirectory) (hl : s'.cr3 = s.cr3)
    (ht : s'.taskPgdir = s.taskPgdir) (hi : s'.bootNextFree = s.bootNextFree) : Effect D pool d s s' := by
  refine ⟨hc, hk, hl, ht, hi, hp, ?_, ?_, ?_, ?_⟩ <;> simp [hm]

theorem refl : Effect D pool d s s := of_mem_eq rfl (fun _ _ => rfl) rfl rfl rfl rfl rfl

theorem setPages {pages : ℕ → PageStatus} (hp : ∀ q, q ∉ pool → pages q = s.pages q) :
    Effect D pool d s (s.setPages pages) := of_mem_eq rfl hp rfl rfl rfl rfl rfl

theorem setRefs (hq : q ∈ pool) (v : Word) : Effect D pool d s (s.setRefs q v) :=
  setPages (fun p hp => Function.update_of_ne (fun he : p = q => hp (he ▸ hq)) _ _)

theorem popFree (hq : q ∈ pool) : Effect D pool d s (s.popFree q) := by
  refine of_mem_eq rfl (fun p hp => ?_) rfl rfl rfl rfl rfl
  rw [KState.setPages_pages, KState.setFreeList_pages, Function.update_of_ne (fun he : p = q => hp (he ▸ hq))]

theorem pushFree (hq : q ∈ pool) : Effect D pool d s (s.pushFree q) := by
  refine of_mem_eq rfl (fun p hp => ?_) rfl rfl rfl rfl rfl
  have hne : p ≠ q := fun he => hp (he ▸ hq)
  rw [KState.setPages_pages, Function.update_of_ne hne, KState.setFreeList_pages, KState.setPages_pages,
    Function.update_of_ne hne]

theorem dropTlb (va : Word) : Effect D pool d s (s.dropTlb va) := of_mem_eq rfl (fun _ _ => rfl) rfl rfl rfl rfl rfl

theorem trans (h₁ : Effect D pool d s s₁) (h₂ : Effect D pool d s₁ s₂) : Effect D pool d s s₂ where
  count := h₂.count.trans h₁.count
  kern := h₂.kern.trans h₁.kern
  loaded := h₂.loaded.trans h₁.loaded
  tasks := h₂.tasks.trans h₁.tasks
  image := h₂.image.trans h₁.image
  pages q hq := (h₂.pages q hq).trans (h₁.pages q hq)
  outside f hp hd := (h₂.outside f hp hd).trans (h₁.outside f hp hd)
  high f hf i hi := (h₂.high f hf i hi).trans (h₁.high f hf i hi)
  others f hf hd := (h₂.others f hf hd).trans (h₁.others f hf hd)
  tables f hf hd i hi t ht := by
    have hs : pteTarget (s₁.mem f i) = some t := by rwa [h₁.others f hf hd]
    exact (h₂.tables f hf hd i hi t hs).trans (h₁.tables f hf hd i hi t ht)

theorem setFrame (hq : q ∈ pool) (hd : q ∉ D) (ht : ¬ s.IsTable D q) (g : ℕ → Word) :
    Effect D pool d s (s.setFrame q g) := by
  have hne : ∀ {f}, f ∈ D → f ≠ q := fun hf he => hd (he ▸ hf)
  refine ⟨rfl, rfl, rfl, rfl, rfl, fun _ _ => rfl, ?_, ?_, ?_, ?_⟩
  · intro f hp _
    exact Radix.setFrame_ne _ _ (fun he : f = q => hp (he ▸ hq))
  · intro f hf i _
    rw [KState.setMem_mem, Radix.setFrame_ne _ _ (hne hf)]
  · intro f hf _
    exact Radix.setFrame_ne _ _ (hne hf)
  · intro f hf _ i hi t' ht'
    exact Radix.setFrame_ne _ _ (fun he : t' = q => ht ⟨f, hf, i, hi, he ▸ ht'⟩)

theorem setLeaf (h : FrameInv s D pool L owed) (hd : d ∈ D) (hi : i ∈ lowDir)
    (hc : pteTarget (s.mem d i) = some t) : Effect D pool d s (s.setWord t j w) := by
  have htp := (h.table_used t ⟨d, hd, i, hi, hc⟩).1
  have htd := h.apart.not_dir d hd i hi t hc
  have hne : ∀ {f}, f ∈ D → f ≠ t := fun hf he => htd (he ▸ hf)
  refine ⟨rfl, rfl, rfl, rfl, rfl, fun _ _ => rfl, ?_, ?_, ?_, ?_⟩
  · intro f hp _
    exact Radix.setWord_frame_ne _ _ (fun he : f = t => hp (he ▸ htp))
  · intro f hf i _
    rw [KState.setMem_mem, Radix.setWord_frame_ne _ _ (hne hf)]
  · intro f hf _
    exact Radix.setWord_frame_ne _ _ (hne hf)
  · intro f hf hfd i' hi' t' ht'
    refine Radix.setWord_frame_ne _ _ (fun he : t' = t => hfd ?_)
    exact (h.apart.unshared f hf i' hi' d hd i hi t' ht' (he ▸ hc)).1

theorem setDir (h : FrameInv s D pool L owed) (hd : d ∈ D) (hi : i ∈ lowDir) :
    Effect D pool d s (s.setWord d i w) := by
  refine ⟨rfl, rfl, rfl, rfl, rfl, fun _ _ => rfl, ?_, ?_, ?_, ?_⟩
  · intro f _ hf
    exact Radix.setWord_frame_ne _ _ (fun he : f = d => hf (he ▸ hd))
  · intro f _ i' hi'
    have hne : i' ≠ i := fun he => hi' (he ▸ hi)
    by_cases hf : f = d
    · subst hf
      exact Radix.setWord_index_ne _ _ hne
    · rw [KState.setMem_mem, Radix.setWord_frame_ne _ _ hf]
  · intro f _ hf
    exact Radix.setWord_frame_ne _ _ hf
  · intro f hf _ i' hi' t ht
    exact Radix.setWord_frame_ne _ _ (fun he : t = d => h.apart.not_dir f hf i' hi' t ht (he ▸ hd))

theorem dirWalk_eq (h : Effect D pool d s s') {f : ℕ} (hf : f ∈ D) (hd : f ≠ d) {va : Word} (hv : va < uTop) :
    dirWalk s'.mem f va = dirWalk s.mem f va := by
  rw [dirWalk, dirWalk, h.others f hf hd]
  cases hp : isPagePresent (s.mem f (pdx va)) with
  | false => simp [entryOf, hp]
  | true =>
    rw [h.tables f hf hd _ (pdx_mem_lowDir.mpr hv) _ (pteTarget_present hp)]

end Effect

end Cezos
