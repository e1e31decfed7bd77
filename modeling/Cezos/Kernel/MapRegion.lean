import Cezos.Kernel.SetupPages
import Cezos.Kernel.CallInv

namespace Cezos

open Lib

variable {s s' : KState} {pgdir va w : Word} {kf q t i j v : ℕ} {L L' : List ℕ} {view : ℕ → Word}

def KState.kview (s : KState) (kf v : ℕ) : Word :=
  match pteTarget (s.mem kf (v / 1024)) with
  | none => 0#32
  | some t => s.mem t (v % 1024)

theorem kview_of_table (h : pteTarget (s.mem kf (v / 1024)) = some t) : s.kview kf v = s.mem t (v % 1024) := by
  simp only [KState.kview, h]

theorem kview_of_none (h : pteTarget (s.mem kf (v / 1024)) = none) : s.kview kf v = 0#32 := by
  simp only [KState.kview, h]

theorem pteTarget_tableEntry (h : t < 1048576) : pteTarget (page2pa t ||| tablePerm) = some t :=
  pteTarget_some.mpr ⟨present_tableEntry t, pteFrame_tableEntry h⟩

def regionDirs : Finset ℕ := insert 956 (Finset.Icc 959 1023)

theorem card_regionDirs : regionDirs.card = 66 := by rfl

theorem mem_regionDirs : i ∈ regionDirs ↔ i = 956 ∨ (959 ≤ i ∧ i ≤ 1023) := by
  simp [regionDirs]

structure Stock (s₀ : KState) (L₀ : List ℕ) (kf : ℕ) : Prop where
  pages : ∀ q ∈ L₀, 0 < q ∧ q < s₀.pagesCount ∧ q < 1048576
  nodup : L₀.Nodup
  dir : kf ∉ L₀

def Enough (L₀ : List ℕ) : Prop := ∃ low high, L₀ = low ++ high ∧ (∀ q ∈ low, q < 1024) ∧ 66 ≤ low.length

structure Mapping (s₀ : KState) (L₀ : List ℕ) (kf : ℕ) (view : ℕ → Word) (s : KState) (L : List ℕ) : Prop where
  setup : SameSetup s₀ s
  chain : s.FreeList L
  free : ∀ q ∈ L, (s.pages q).refs = 0#32
  refs : ∀ q, q ∉ L → (s.pages q).refs = if q ∈ L₀ then 1#32 else (s₀.pages q).refs
  taken : ∃ T, L₀ = T ++ L ∧ T.length = (regionDirs.filter (fun i => isPagePresent (s.mem kf i) = true)).card
  apart : Radix.Apart pteTarget s.mem {kf} regionDirs
  entry : ∀ i ∈ regionDirs, s.mem kf i = 0#32 ∨
    ∃ t, t ∈ L₀ ∧ t ∉ L ∧ t < 1024 ∧ s.mem kf i = page2pa t ||| tablePerm
  other : ∀ i, i ∉ regionDirs → s.mem kf i = s₀.mem kf i
  entries : ∀ v, v / 1024 ∈ regionDirs → s.kview kf v = view v

theorem returns_mapPage {st : Bool} {virt phys perm : Word} {i : ℕ} :
    Returns st (mapPage pgdir virt phys perm i) s () s' ↔
      ∃ p s₁, Returns st (getPageTable pgdir (virt + BitVec.ofNat 32 i * pageSize) true) s p s₁ ∧ p ≠ 0#32 ∧
        Returns st (store p ((phys + BitVec.ofNat 32 i * pageSize) ||| perm ||| pteP)) s₁ () s' := by
  simp only [mapPage, returns_bind, returns_ite, returns_errorLoop, and_false, false_or]

/-- The entries after the first `n` turns of a loop that maps from page `v₀` on. -/
def overlay (view : ℕ → Word) (v₀ n : ℕ) (entry : ℕ → Word) (v : ℕ) : Word :=
  if v₀ ≤ v ∧ v < v₀ + n then entry (v - v₀) else view v

theorem overlay_succ (view : ℕ → Word) (v₀ n : ℕ) (entry : ℕ → Word) :
    overlay view v₀ (n + 1) entry = Function.update (overlay view v₀ n entry) (v₀ + n) (entry n) := by
  funext v
  by_cases hv : v = v₀ + n
  · subst hv
    rw [Function.update_self, overlay, if_pos (by omega), Nat.add_sub_cancel_left]
  · rw [Function.update_of_ne hv, overlay, overlay]
    by_cases h : v₀ ≤ v ∧ v < v₀ + n
    · rw [if_pos h, if_pos (by omega)]
    · rw [if_neg h, if_neg (by omega)]

theorem overlay_zero (view : ℕ → Word) (v₀ : ℕ) (entry : ℕ → Word) : overlay view v₀ 0 entry = view := by
  funext v
  rw [overlay, if_neg (by omega)]

def regionEntry (phys perm : Word) (k : ℕ) : Word := (phys + BitVec.ofNat 32 k * pageSize) ||| perm ||| pteP

theorem pgnum_offset {virt : Word} {k : ℕ} (ha : pgoff virt = 0) (hk : pgnum virt + k < 1048576) :
    pgnum (virt + BitVec.ofNat 32 k * pageSize) = pgnum virt + k := by
  have hs := toNat_split virt
  rw [ha] at hs
  rw [pgnum_eq, BitVec.toNat_add, BitVec.toNat_mul]
  simp only [pageSize, BitVec.toNat_ofNat]
  omega

namespace Mapping

variable {s₀ : KState} {L₀ : List ℕ}

theorem table (h : Mapping s₀ L₀ kf view s L) (hk : Stock s₀ L₀ kf) (hi : i ∈ regionDirs)
    (ht : pteTarget (s.mem kf i) = some t) : t ∈ L₀ ∧ t ∉ L ∧ t < 1024 ∧ t < s.pagesCount := by
  rcases h.entry i hi with h0 | ⟨t', h₁, h₂, h₃, he⟩
  · rw [h0, pteTarget_absent present_zero] at ht
    cases ht
  · have hlt := hk.pages t' h₁
    rw [he, pteTarget_tableEntry hlt.2.2] at ht
    cases ht
    rw [h.setup.count]
    exact ⟨h₁, h₂, h₃, hlt.2.1⟩

theorem sub (h : Mapping s₀ L₀ kf view s L) (hq : q ∈ L) : q ∈ L₀ := by
  obtain ⟨T, hT, _⟩ := h.taken
  rw [hT]
  exact List.mem_append_right T hq

theorem taken_le (h : Mapping s₀ L₀ kf view s L) : ∃ T, L₀ = T ++ L ∧ T.length ≤ 66 := by
  obtain ⟨T, hT, hlen⟩ := h.taken
  refine ⟨T, hT, ?_⟩
  rw [hlen, ← card_regionDirs]
  exact Finset.card_filter_le _ _

theorem not_table (h : Mapping s₀ L₀ kf view s L) (hk : Stock s₀ L₀ kf) (hq : q ∈ L) :
    ¬ Radix.IsTable pteTarget s.mem {kf} regionDirs q := by
  rintro ⟨d, hd, i, hi, hc⟩
  rw [Finset.mem_singleton] at hd
  subst hd
  exact (h.table hk hi hc).2.1 hq

section NewTable

variable {ps : ℕ} (h : Mapping s₀ L₀ (kernFrame pgdir) view s (ps :: L)) (hk : Stock s₀ L₀ (kernFrame pgdir))

include h hk

theorem head_kva : kernFrame (s.kva ps) = ps := by
  have hlt := hk.pages ps (h.sub List.mem_cons_self)
  exact kernFrame_kva (by rw [h.setup.count]; exact hlt.2.1) hlt.2.2

theorem head_ne : kernFrame pgdir ≠ ps := fun he => hk.dir (he ▸ h.sub List.mem_cons_self)

variable (hp : isPagePresent (s.pdeAt pgdir va) = false)

include hp

theorem newTable_apart (hv : pdx va ∈ regionDirs) :
    Radix.Apart pteTarget (s.newTable pgdir va ps).mem {kernFrame pgdir} regionDirs := by
  have hne := h.head_ne hk
  have hlt := hk.pages ps (h.sub List.mem_cons_self)
  have hnotdir : ps ∉ ({kernFrame pgdir} : Finset ℕ) := by
    rw [Finset.mem_singleton]
    exact Ne.symm hne
  have hfresh : Radix.Fresh pteTarget (Radix.setFrame s.mem ps (fun _ => 0#32)) {kernFrame pgdir} regionDirs ∅
      (kernFrame pgdir) (pdx va) ps (page2pa ps ||| tablePerm) := by
    refine ⟨Finset.mem_singleton_self _, hv, ?_, pteTarget_tableEntry hlt.2.2, hnotdir, ?_, by simp⟩
    · rw [Radix.child, Radix.setFrame_ne _ _ hne]
      exact pteTarget_absent hp
    · rintro ⟨d, hd, i, hi, hct⟩
      rw [Radix.child_setFrame hd hnotdir] at hct
      exact h.not_table hk (q := ps) List.mem_cons_self ⟨d, hd, i, hi, hct⟩
  rw [KState.newTable_mem (h.head_kva hk)]
  exact hfresh.apart (h.apart.setFrame hnotdir)

theorem newTable_taken (hv : pdx va ∈ regionDirs) : ∃ T, L₀ = T ++ L ∧ T.length =
    (regionDirs.filter (fun i => isPagePresent ((s.newTable pgdir va ps).mem (kernFrame pgdir) i) = true)).card := by
  have hdir := KState.newTable_dir (h.head_kva hk) (h.head_ne hk) va
  obtain ⟨T, hT, hlen⟩ := h.taken
  refine ⟨T ++ [ps], by simp [hT], ?_⟩
  have hcard := Radix.card_filter_update regionDirs (fun i => isPagePresent (s.mem (kernFrame pgdir) i) = true)
    (fun i => isPagePresent ((s.newTable pgdir va ps).mem (kernFrame pgdir) i) = true) hv
    (fun x _ hx => by rw [hdir, if_neg hx])
  have hold : ¬ isPagePresent (s.mem (kernFrame pgdir) (pdx va)) = true := by
    have hp' : isPagePresent (s.mem (kernFrame pgdir) (pdx va)) = false := hp
    rw [hp']
    decide
  rw [if_neg hold, hdir, if_pos rfl, if_pos (present_tableEntry ps)] at hcard
  rw [List.length_append, hlen]
  simpa using hcard.symm

theorem newTable_kview (hv : v / 1024 ∈ regionDirs) :
    (s.newTable pgdir va ps).kview (kernFrame pgdir) v = s.kview (kernFrame pgdir) v := by
  have hlt := hk.pages ps (h.sub List.mem_cons_self)
  have hdir := KState.newTable_dir (h.head_kva hk) (h.head_ne hk) va (v / 1024)
  by_cases hvi : v / 1024 = pdx va
  · -- the new table is empty, as the part of the directory was that it is for
    have ht : pteTarget ((s.newTable pgdir va ps).mem (kernFrame pgdir) (v / 1024)) = some ps := by
      rw [hdir, if_pos hvi]
      exact pteTarget_tableEntry hlt.2.2
    rw [kview_of_table ht, kview_of_none (by rw [hvi]; exact pteTarget_absent hp),
      KState.newTable_zero (h.head_kva hk) (h.head_ne hk) va]
  · rw [if_neg hvi] at hdir
    cases ht : pteTarget (s.mem (kernFrame pgdir) (v / 1024)) with
    | none => rw [kview_of_none (by rw [hdir]; exact ht), kview_of_none ht]
    | some t =>
      have htab := h.table hk hv ht
      have htp : t ≠ ps := fun he => htab.2.1 (by simp [he])
      have htk : t ≠ kernFrame pgdir := fun he => hk.dir (he ▸ htab.1)
      rw [kview_of_table (by rw [hdir]; exact ht), kview_of_table ht, KState.newTable_frame (h.head_kva hk) htp htk]

theorem newTable (hv : pdx va ∈ regionDirs) (hlow : ps < 1024) :
    Mapping s₀ L₀ (kernFrame pgdir) view (s.newTable pgdir va ps) L := by
  have hn := (List.nodup_cons.mp (Chain.nodup h.chain)).1
  have hps := h.sub List.mem_cons_self
  have hdir := KState.newTable_dir (h.head_kva hk) (h.head_ne hk) va
  refine ⟨h.setup.trans ⟨rfl, rfl, rfl, rfl, rfl, rfl, rfl⟩, h.chain.newTable, fun q hq => ?_, fun q hq => ?_,
    h.newTable_taken hk hp hv, h.newTable_apart hk hp hv, fun i hi => ?_, fun i hi => ?_, fun v hvr => ?_⟩
  · rw [KState.newTable_refs, if_neg (fun he : q = ps => hn (he ▸ hq))]
    exact h.free q (List.mem_cons_of_mem _ hq)
  · rw [KState.newTable_refs]
    split
    · next he =>
      rw [he, if_pos hps, h.free ps List.mem_cons_self]
      rfl
    · next he => exact h.refs q (by simp [he, hq])
  · rw [hdir]
    split
    · exact Or.inr ⟨ps, hps, hn, hlow, rfl⟩
    · rcases h.entry i hi with h0 | ⟨t, h₁, h₂, h₃, he⟩
      · exact Or.inl h0
      · exact Or.inr ⟨t, h₁, fun hm => h₂ (List.mem_cons_of_mem _ hm), h₃, he⟩
  · rw [hdir, if_neg (fun he : i = pdx va => hi (he ▸ hv))]
    exact h.other i hi
  · rw [h.newTable_kview hk hp hvr, h.entries v hvr]

end NewTable

theorem getPageTable (h : Mapping s₀ L₀ (kernFrame pgdir) view s L) (hk : Stock s₀ L₀ (kernFrame pgdir))
    (ha : pgoff pgdir = 0) (hc : s.cr3 = none) (hv : pdx va ∈ regionDirs) {p : Word}
    (hr : Returns true (getPageTable pgdir va true) s p s') :
    ∃ L', Mapping s₀ L₀ (kernFrame pgdir) view s' L' ∧ isPagePresent (s'.pdeAt pgdir va) = true ∧
      p = s'.ptePtr pgdir va := by
  obtain ⟨_, ⟨hp, rfl, rfl⟩ | ⟨hp, _, ps, hl, rfl, rfl, hclean⟩⟩ := (returns_getPageTable ha).mp hr
  · exact ⟨L, h, hp, rfl⟩
  · have hch := h.chain
    rw [KState.FreeList, hl] at hch
    obtain ⟨L', rfl, _⟩ := Chain.pop hch none
    have hlow : ps < 1024 := by
      have := (hclean rfl).2.1
      rwa [reaches_entry hc, decide_eq_true_eq, h.head_kva hk] at this
    have hpde : (s.newTable pgdir va ps).pdeAt pgdir va = page2pa ps ||| tablePerm := KState.newTable_pdeAt
    refine ⟨L', h.newTable hk hp hv hlow, ?_, ?_⟩
    · rw [hpde]
      exact present_tableEntry ps
    · rw [KState.ptePtr, hpde]
      rfl

theorem ptr (h : Mapping s₀ L₀ (kernFrame pgdir) view s L) (hk : Stock s₀ L₀ (kernFrame pgdir))
    (hv : pdx va ∈ regionDirs) (hp : isPagePresent (s.pdeAt pgdir va) = true) :
    ∃ t, pteTarget (s.mem (kernFrame pgdir) (pdx va)) = some t ∧ t < 1024 ∧ t ≠ kernFrame pgdir ∧
      kernFrame (s.ptePtr pgdir va) = t ∧ kernIndex (s.ptePtr pgdir va) = ptx va := by
  have ht : pteTarget (s.mem (kernFrame pgdir) (pdx va)) = some (pteFrame (s.pdeAt pgdir va)) := pteTarget_present hp
  have htab := h.table hk hv ht
  exact ⟨_, ht, htab.2.2.1, fun he => hk.dir (he ▸ htab.1), kernFrame_tablePtr htab.2.2.2, kernIndex_tablePtr _ _ _⟩

theorem setEntry (h : Mapping s₀ L₀ (kernFrame pgdir) view s L) (hk : Stock s₀ L₀ (kernFrame pgdir))
    (hv : pdx va ∈ regionDirs) (hp : isPagePresent (s.pdeAt pgdir va) = true) (w : Word) :
    Mapping s₀ L₀ (kernFrame pgdir) (Function.update view (pgnum va) w)
      (s.setWord (kernFrame (s.ptePtr pgdir va)) (kernIndex (s.ptePtr pgdir va)) w) L := by
  obtain ⟨t, ht, hlt, hne, hf, hi⟩ := h.ptr hk hv hp
  rw [hf, hi]
  set kf := kernFrame pgdir with hkf
  have hdir : ∀ i, (s.setWord t (ptx va) w).mem kf i = s.mem kf i := by
    intro i
    rw [KState.setMem_mem, Radix.setWord_frame_ne _ _ (Ne.symm hne)]
  have htd : t ∉ ({kf} : Finset ℕ) := by
    rw [Finset.mem_singleton]
    exact hne
  refine ⟨h.setup.trans ⟨rfl, rfl, rfl, rfl, rfl, rfl, rfl⟩, h.chain, h.free, h.refs, ?_, h.apart.setWord htd,
    ?_, ?_, ?_⟩
  · simp only [hdir]
    exact h.taken
  · intro i hi
    rw [hdir]
    exact h.entry i hi
  · intro i hi
    rw [hdir]
    exact h.other i hi
  · intro v hvr
    have hpg := pgnum_split va
    by_cases hveq : v = pgnum va
    · have hdiv : v / 1024 = pdx va := by rw [hveq, pdx_of_pgnum]
      rw [hveq, Function.update_self, ← hveq, kview_of_table (t := t) (by rw [hdir, hdiv]; exact ht), hveq,
        ← ptx_of_pgnum]
      exact Radix.setWord_same _ _
    · rw [Function.update_of_ne hveq, ← h.entries v hvr]
      cases ht' : pteTarget (s.mem kf (v / 1024)) with
      | none => rw [kview_of_none (by rw [hdir]; exact ht'), kview_of_none ht']
      | some t' =>
        rw [kview_of_table (by rw [hdir]; exact ht'), kview_of_table ht', KState.setMem_mem]
        by_cases htt : t' = t
        · subst htt
          have hsame := h.apart.unshared kf (Finset.mem_singleton_self kf) _ hvr kf
            (Finset.mem_singleton_self kf) _ hv
            t' ht' ht
          have hx := ptx_lt va
          exact Radix.setWord_index_ne _ _ (by omega)
        · rw [Radix.setWord_frame_ne _ _ htt]

theorem mapPage (h : Mapping s₀ L₀ (kernFrame pgdir) view s L) (hk : Stock s₀ L₀ (kernFrame pgdir))
    (ha : pgoff pgdir = 0) (hc : s.cr3 = none) {virt phys perm : Word} {i : ℕ}
    (hv : pdx (virt + BitVec.ofNat 32 i * pageSize) ∈ regionDirs)
    (hr : Returns true (mapPage pgdir virt phys perm i) s () s') :
    ∃ L', Mapping s₀ L₀ (kernFrame pgdir) (Function.update view (pgnum (virt + BitVec.ofNat 32 i * pageSize))
      ((phys + BitVec.ofNat 32 i * pageSize) ||| perm ||| pteP)) s' L' := by
  obtain ⟨p, s₁, hg, _, hs⟩ := returns_mapPage.mp hr
  obtain ⟨rfl, _⟩ := returns_store.mp hs
  obtain ⟨L', hm, hp, rfl⟩ := h.getPageTable hk ha hc hv hg
  exact ⟨L', hm.setEntry hk hv hp _⟩

theorem head_low (h : Mapping s₀ L₀ kf view s L) (he : Enough L₀) (hi : i ∈ regionDirs)
    (hp : isPagePresent (s.mem kf i) = false) : ∃ q L', L = q :: L' ∧ q < 1024 := by
  obtain ⟨low, high, hL₀, hlow, hlen⟩ := he
  obtain ⟨T, hT, hcard⟩ := h.taken
  have hlt : T.length < 66 := by
    rw [hcard, ← card_regionDirs]
    apply Finset.card_lt_card
    refine ⟨Finset.filter_subset _ _, fun hsub => ?_⟩
    have := (Finset.mem_filter.mp (hsub hi)).2
    rw [hp] at this
    cases this
  have hget : L₀[T.length]? = low[T.length]? := by
    rw [hL₀, List.getElem?_append_left (by omega)]
  rw [hT, List.getElem?_append_right (Nat.le_refl _), Nat.sub_self,
    List.getElem?_eq_getElem (by omega : T.length < low.length)] at hget
  cases L with
  | nil => simp at hget
  | cons q L' =>
    simp only [List.getElem?_cons_zero, Option.some.injEq] at hget
    exact ⟨q, L', rfl, hget ▸ hlow _ (List.getElem_mem _)⟩

theorem mapPage_exists (h : Mapping s₀ L₀ (kernFrame pgdir) view s L) (hk : Stock s₀ L₀ (kernFrame pgdir))
    (he : Enough L₀) (ha : pgoff pgdir = 0) (hc : s.cr3 = none) (hd : kernFrame pgdir < 1024)
    (himage : ∀ q ∈ L₀, s₀.inKernelImage q = false) {virt phys perm : Word} {i : ℕ}
    (hv : pdx (virt + BitVec.ofNat 32 i * pageSize) ∈ regionDirs) :
    ∃ s', Returns true (Cezos.mapPage pgdir virt phys perm i) s () s' := by
  set va := virt + BitVec.ofNat 32 i * pageSize with hva
  have hreach : ∀ {t : KState}, t.cr3 = none → ∀ b, t.reaches (entryPtr pgdir (pdx va)) b = true := by
    intro t ht b
    rw [reaches_entry ht, decide_eq_true_eq, kernFrame_entryPtr ha (pdx_lt va)]
    exact hd
  have hget : ∃ p s₁, Returns true (Cezos.getPageTable pgdir va true) s p s₁ := by
    cases hp : isPagePresent (s.pdeAt pgdir va) with
    | true => exact ⟨_, s, (returns_getPageTable ha).mpr ⟨fun _ => hreach hc _, Or.inl ⟨hp, rfl, rfl⟩⟩⟩
    | false =>
      obtain ⟨q, L', rfl, hq⟩ := h.head_low he hv hp
      have hlt := hk.pages q (h.sub List.mem_cons_self)
      have hframe : kernFrame (s.kva q) = q := kernFrame_kva (by rw [h.setup.count]; exact hlt.2.1) hlt.2.2
      have himg : s.inKernelImage q = false := by
        have := himage q (h.sub List.mem_cons_self)
        rwa [KState.inKernelImage, h.setup.next]
      refine ⟨_, _,
        (returns_getPageTable ha).mpr ⟨fun _ => hreach hc _, Or.inr ⟨hp, rfl, q, h.chain.1, rfl, rfl, fun _ => ?_⟩⟩⟩
      rw [hframe]
      refine ⟨himg, ?_, hreach (t := s.takeTable q) hc _⟩
      rw [reaches_entry hc, decide_eq_true_eq, hframe]
      exact hq
  obtain ⟨p, s₁, hg⟩ := hget
  obtain ⟨L', hm, hp, rfl⟩ := h.getPageTable hk ha hc hv hg
  obtain ⟨t, _, hlt, _, hf, _⟩ := hm.ptr hk hv hp
  have hc₁ : s₁.cr3 = none := (hm.setup.loaded.trans h.setup.loaded.symm).trans hc
  have h0 : s₁.ptePtr pgdir va ≠ 0#32 := by
    intro hz
    rw [hz] at hf
    have : kernFrame 0#32 = 65536 := by decide
    omega
  refine ⟨_, returns_mapPage.mpr ⟨_, s₁, hg, h0, returns_store.mpr ⟨rfl, fun _ => ?_⟩⟩⟩
  rw [reaches_entry hc₁, decide_eq_true_eq, hf]
  exact hlt

section Region

variable {phys perm virt size : Word} (hk : Stock s₀ L₀ (kernFrame pgdir)) (ha : pgoff pgdir = 0)
  (hc : s₀.cr3 = none) (hv : pgoff virt = 0) (hn : pgnum virt + (size / pageSize).toNat ≤ 1048576)
  (hd : ∀ k < (size / pageSize).toNat, (pgnum virt + k) / 1024 ∈ regionDirs)

include hk ha hc hv hn hd

theorem mapMemoryRegion (h : Mapping s₀ L₀ (kernFrame pgdir) view s L)
    (hr : Returns true (Cezos.mapMemoryRegion pgdir virt size phys perm) s () s') :
    ∃ L', Mapping s₀ L₀ (kernFrame pgdir)
      (overlay view (pgnum virt) (size / pageSize).toNat (regionEntry phys perm)) s' L' := by
  have hstep := forUp_invariant (I := fun k t => ∃ L', Mapping s₀ L₀ (kernFrame pgdir)
    (overlay view (pgnum virt) k (regionEntry phys perm)) t L') ?_ hr ⟨L, by rwa [overlay_zero]⟩
  · rwa [Nat.zero_add] at hstep
  · rintro k t t' _ hlt ⟨L', hm⟩ hbody
    have hpg := pgnum_offset hv (show pgnum virt + k < 1048576 by omega)
    have hin : pdx (virt + BitVec.ofNat 32 k * pageSize) ∈ regionDirs := by
      rw [pdx_of_pgnum, hpg]
      exact hd k (by omega)
    obtain ⟨L'', hm'⟩ := hm.mapPage hk ha (hm.setup.loaded.trans hc) hin hbody
    rw [hpg] at hm'
    exact ⟨L'', by rwa [overlay_succ]⟩

variable (phys perm) in
theorem mapMemoryRegion_exists (h : Mapping s₀ L₀ (kernFrame pgdir) view s L) (he : Enough L₀)
    (hlow : kernFrame pgdir < 1024) (himage : ∀ q ∈ L₀, s₀.inKernelImage q = false) :
    ∃ s', Returns true (Cezos.mapMemoryRegion pgdir virt size phys perm) s () s' := by
  have hstep : ∀ k t, 0 ≤ k → k < 0 + (size / pageSize).toNat →
      (∃ view' L', Mapping s₀ L₀ (kernFrame pgdir) view' t L') →
      ∃ t', Returns true (Cezos.mapPage pgdir virt phys perm k) t () t' ∧
        ∃ view' L', Mapping s₀ L₀ (kernFrame pgdir) view' t' L' := by
    rintro k t _ hlt ⟨view', L', hm⟩
    have hin : pdx (virt + BitVec.ofNat 32 k * pageSize) ∈ regionDirs := by
      rw [pdx_of_pgnum, pgnum_offset hv (by omega)]
      exact hd k (by omega)
    have hc' := hm.setup.loaded.trans hc
    obtain ⟨t', hr⟩ := hm.mapPage_exists hk he ha hc' hlow himage hin
    obtain ⟨L'', hm'⟩ := hm.mapPage hk ha hc' hin hr
    exact ⟨t', hr, _, L'', hm'⟩
  obtain ⟨s', hr, _⟩ := forUp_returns hstep ⟨view, L, h⟩
  exact ⟨s', hr⟩

end Region

end Mapping

end Cezos
