import Cezos.Kernel.PageCalls

namespace Cezos

open Lib

variable {st : Bool} {s s₁ s' : KState} {pgdir va va' perms p w : Word} {d t q ps : ℕ} {mem : ℕ → ℕ → Word}

theorem pageDecref_mem (hr : Returns st (pageDecref q) s () s') : s'.mem = s.mem ∧ s'.pagesCount = s.pagesCount := by
  rcases returns_pageDecref.mp hr with ⟨_, _, rfl⟩ | ⟨_, rfl⟩ <;> exact ⟨rfl, rfl⟩

theorem removePage_mem (ha : pgoff pgdir = 0) (hr : Returns st (removePage pgdir va) s () s') :
    (s'.mem = s.mem ∨
    s'.mem = Radix.setWord s.mem (kernFrame (s.ptePtr pgdir va)) (kernIndex (s.ptePtr pgdir va)) 0#32) ∧
      s'.pagesCount = s.pagesCount := by
  obtain ⟨_, _, ⟨_, rfl⟩ | ⟨q, s₁, _, _, hd, rfl⟩⟩ := (returns_removePage ha).mp hr
  · exact ⟨Or.inl rfl, rfl⟩
  · obtain ⟨hm, hc⟩ := pageDecref_mem hd
    exact ⟨Or.inr hm, hc⟩

theorem setWord_setWord (i : ℕ) (w' : Word) :
    Radix.setWord (Radix.setWord mem t i w) t i w' = Radix.setWord mem t i w' := by
  funext f j
  simp only [Radix.setWord]
  split <;> rfl

theorem inserts_mem (ha : pgoff pgdir = 0) (hp : p = s₁.ptePtr pgdir va) (h : Inserts st pgdir ps va perms p s₁ s') :
    ((s' = s₁ ∧ pteAddr (s₁.wordAt p) = page2pa ps ∧ perms ≠ 0#32) ∨
      (s'.mem = Radix.setWord s₁.mem (kernFrame p) (kernIndex p) (pageEntry ps perms) ∧
        (pteAddr (s₁.wordAt p) = page2pa ps → perms = 0#32))) ∧ s'.pagesCount = s₁.pagesCount := by
  cases h with
  | already he hz => exact ⟨Or.inl ⟨rfl, he, hz⟩, rfl⟩
  | rewritten he hz hc => exact ⟨Or.inr ⟨rfl, fun _ => hz⟩, rfl⟩
  | added he hn hc => exact ⟨Or.inr ⟨rfl, fun h => absurd h he⟩, rfl⟩
  | replaced he hn hr hc =>
    obtain ⟨hm, hcount⟩ := removePage_mem ha hr
    rw [← hp] at hm
    refine ⟨Or.inr ⟨?_, fun h => absurd h he⟩, hcount⟩
    rw [KState.setMem_mem, KState.setPages_mem]
    rcases hm with hm | hm
    · rw [hm]
    · rw [hm, setWord_setWord]

structure IsDirectory (s : KState) (d : ℕ) : Prop where
  list : ∃ L, s.FreeList L
  free : ∀ q, s.OnFreeList q → q < s.pagesCount ∧ q < 1048576 ∧ q ≠ d
  tables : ∀ i ∈ lowDir, ∀ t, pteTarget (s.mem d i) = some t → t < s.pagesCount ∧ t ≠ d

theorem IsDirectory.head (h : IsDirectory s d) (hl : s.pageFreeList = some q) : s.OnFreeList q := by
  obtain ⟨L, hL⟩ := h.list
  have hc := hL
  rw [KState.FreeList, hl] at hc
  obtain ⟨L', rfl, _⟩ := Chain.some_iff.mp hc
  exact ⟨_, hL, List.mem_cons_self⟩

structure AtEntry (s : KState) (pgdir va p : Word) (t : ℕ) : Prop where
  target : pteTarget (s.pdeAt pgdir va) = some t
  lt : t < s.pagesCount
  not_dir : t ≠ kernFrame pgdir
  ptr : p = s.ptePtr pgdir va

namespace AtEntry

theorem pteFrame (h : AtEntry s pgdir va p t) : Cezos.pteFrame (s.pdeAt pgdir va) = t :=
    (pteTarget_some.mp h.target).2

theorem kernFrame (h : AtEntry s pgdir va p t) : Cezos.kernFrame p = t := by
  rw [h.ptr, KState.ptePtr, kernFrame_tablePtr (by rw [h.pteFrame]; exact h.lt), h.pteFrame]

theorem kernIndex (h : AtEntry s pgdir va p t) : Cezos.kernIndex p = ptx va := by
  rw [h.ptr, KState.ptePtr, kernIndex_tablePtr]

theorem wordAt (h : AtEntry s pgdir va p t) : s.wordAt p = s.mem t (ptx va) := by
  rw [KState.wordAt, h.kernFrame, h.kernIndex]

theorem setWord (h : AtEntry s pgdir va p t) (hm : s'.mem = Radix.setWord s.mem t (ptx va) w)
    (hc : s'.pagesCount = s.pagesCount) : AtEntry s' pgdir va p t ∧ s'.wordAt p = w := by
  have hpde : s'.pdeAt pgdir va = s.pdeAt pgdir va := by
    rw [KState.pdeAt, KState.pdeAt, hm, Radix.setWord_frame_ne _ _ (fun he => h.not_dir he.symm)]
  have h' : AtEntry s' pgdir va p t := by
    refine ⟨by rw [hpde]; exact h.target, by rw [hc]; exact h.lt, h.not_dir, ?_⟩
    rw [h.ptr, KState.ptePtr, KState.ptePtr, hpde, hc]
  refine ⟨h', ?_⟩
  rw [h'.wordAt, hm, Radix.setWord_same]

end AtEntry

def transEntries (mem : ℕ → ℕ → Word) (d : ℕ) (va : Word) : Option (Word × Word) :=
  if isPagePresent (mem d (pdx va)) = true ∧ isPagePresent (mem (pteFrame (mem d (pdx va))) (ptx va)) = true then
    some (mem d (pdx va), mem (pteFrame (mem d (pdx va))) (ptx va))
  else none

theorem dirWalk_transEntries (mem : ℕ → ℕ → Word) (d : ℕ) (va : Word) :
    dirWalk mem d va = (transEntries mem d va).bind (fun e => entryOf e.1 e.2) := by
  unfold dirWalk transEntries
  split
  · rfl
  · next h =>
    rw [entryOf, if_neg (by simpa using h)]
    rfl

def LocalTo (d : ℕ) (va : Word) (mem mem' : ℕ → ℕ → Word) : Prop :=
  ∀ va', pgnum va' ≠ pgnum va → pdx va' ≠ pdx uVirtualPageTable →
    transEntries mem' d va' = transEntries mem d va' ∧ dirWalk mem' d va' = dirWalk mem d va'

namespace LocalTo

variable {mem' mem'' : ℕ → ℕ → Word}

theorem of_entries (h : ∀ va', pgnum va' ≠ pgnum va → pdx va' ≠ pdx uVirtualPageTable →
    transEntries mem' d va' = transEntries mem d va') : LocalTo d va mem mem' := by
  intro va' hne hw
  have he := h va' hne hw
  exact ⟨he, by rw [dirWalk_transEntries, dirWalk_transEntries, he]⟩

theorem refl : LocalTo d va mem mem := fun _ _ _ => ⟨rfl, rfl⟩

theorem trans (h₁ : LocalTo d va mem mem') (h₂ : LocalTo d va mem' mem'') : LocalTo d va mem mem'' := by
  intro va' hne hw
  obtain ⟨he₁, hd₁⟩ := h₁ va' hne hw
  obtain ⟨he₂, hd₂⟩ := h₂ va' hne hw
  exact ⟨he₂.trans he₁, hd₂.trans hd₁⟩

theorem setEntry (hd : t ≠ d) (hu : ∀ j ∈ tableWords, j ≠ pdx uVirtualPageTable → j ≠ pdx va →
    pteTarget (mem d j) ≠ some t) :
    LocalTo d va mem (Radix.setWord mem t (ptx va) w) := by
  apply of_entries
  intro va' hne hw
  have hpde : Radix.setWord mem t (ptx va) w d = mem d := Radix.setWord_frame_ne _ _ hd.symm
  simp only [transEntries, hpde]
  by_cases hp : isPagePresent (mem d (pdx va')) = true
  · have hpte : Radix.setWord mem t (ptx va) w (pteFrame (mem d (pdx va'))) (ptx va') =
        mem (pteFrame (mem d (pdx va'))) (ptx va') := by
      by_cases hx : pdx va' = pdx va
      · -- in the same table, but at another entry
        refine Radix.setWord_index_ne _ _ (fun he => hne ?_)
        rw [pgnum_split, pgnum_split, hx, he]
      · have hne' := hu (pdx va') (by simpa [tableWords] using pdx_lt va') hw hx
        rw [pteTarget_present hp, Ne, Option.some.injEq] at hne'
        rw [Radix.setWord_frame_ne _ _ hne']
    rw [hpte]
  · simp [hp]

theorem newTable (hq : q ≠ d) (hp : isPagePresent (mem d (pdx va)) = false) (hw : pteFrame w = q)
    (hu : ∀ j ∈ tableWords, j ≠ pdx uVirtualPageTable → pteTarget (mem d j) ≠ some q)
    (hs : ∀ j ∈ tableWords, j ≠ pdx uVirtualPageTable → pteTarget (mem d j) ≠ some d) :
    LocalTo d va mem (Radix.setWord (Radix.setFrame mem q (fun _ => 0#32)) d (pdx va) w) := by
  apply of_entries
  intro va' hne hwin
  by_cases hx : pdx va' = pdx va
  · -- nothing was mapped there, and nothing is: the new table is empty
    have hafter : Radix.setWord (Radix.setFrame mem q (fun _ => 0#32)) d (pdx va) w q (ptx va') = 0#32 := by
      rw [Radix.setWord_frame_ne _ _ hq, Radix.setFrame_same]
    simp only [transEntries, hx, Radix.setWord_same, hw, hafter, present_zero, hp]
    simp
  · have hpde : Radix.setWord (Radix.setFrame mem q (fun _ => 0#32)) d (pdx va) w d (pdx va') = mem d (pdx va') := by
      rw [Radix.setWord_index_ne _ _ hx, Radix.setFrame_ne _ _ hq.symm]
    simp only [transEntries, hpde]
    by_cases hp' : isPagePresent (mem d (pdx va')) = true
    · have hmem : pdx va' ∈ tableWords := by simpa [tableWords] using pdx_lt va'
      have hnq := hu _ hmem hwin
      have hnd := hs _ hmem hwin
      rw [pteTarget_present hp', Ne, Option.some.injEq] at hnq hnd
      rw [Radix.setWord_frame_ne _ _ hnd, Radix.setFrame_ne _ _ hnq]
    · simp [hp']

end LocalTo

def Unshared (mem : ℕ → ℕ → Word) (d : ℕ) (va : Word) (t : ℕ) : Prop :=
  ∀ j ∈ tableWords, j ≠ pdx uVirtualPageTable → j ≠ pdx va → pteTarget (mem d j) ≠ some t

end Cezos
