import Cezos.Kernel.AllocRuns
import Cezos.Kernel.CheckDir
import Cezos.Kernel.EarlyAlloc
import Cezos.Lib.Multiples

namespace Cezos

open Lib

variable {st : Bool} {a : Word} {s₀ s s' : KState} {bs : List Block} {b : Block} {lo e f p q count : ℕ}

def roundDown (a n : Word) : Word := a - a % n

def roundUp (a n : Word) : Word := roundDown (a + n - 1#32) n

theorem toNat_roundUp (h : a.toNat ≤ 4294963200) : (roundUp a pageSize).toNat = (a.toNat + 4095) / 4096 * 4096 := by
  have hlt := a.isLt
  have hsum : (a + pageSize - 1#32).toNat = a.toNat + 4095 := by
    rw [BitVec.toNat_sub, BitVec.toNat_add]
    simp only [pageSize, BitVec.toNat_ofNat, Nat.reducePow, Nat.reduceMod]
    omega
  rw [roundUp, roundDown, BitVec.toNat_sub, BitVec.toNat_umod, hsum]
  simp only [pageSize, BitVec.toNat_ofNat, Nat.reducePow, Nat.reduceMod]
  omega

theorem roundUp_first (h : a.toNat ≤ 4294963200) : FirstMultiple 4096 a.toNat (roundUp a pageSize).toNat := by
  rw [toNat_roundUp h, firstMultiple_iff]
  exact ⟨⟨by omega, by omega⟩, fun p hp => by omega⟩

def RoundsUp (a : Word) : Prop :=
  pageAllignedRound a = roundUp a pageSize ∧ FirstMultiple 4096 a.toNat (pageAllignedRound a).toNat

theorem pageAllignedRound_first_iff (h : a.toNat ≤ 4294963200) :
    FirstMultiple 4096 a.toNat (pageAllignedRound a).toNat ↔ ¬ 4096 ∣ a.toNat := by
  rcases Nat.lt_or_eq_of_le h with hlt | heq
  · rw [toNat_pageAllignedRound (by omega), Nat.mul_comm]
    exact firstMultiple_next_iff (by decide)
  · -- the sum wraps around to zero
    obtain rfl : a = 4294963200#32 := BitVec.eq_of_toNat_eq heq
    refine iff_of_false (fun hfirst => ?_) (not_not.mpr (by decide))
    exact absurd (firstMultiple_iff.mp hfirst).1.2 (by decide)

theorem roundsUp_iff (h : a.toNat ≤ 4294963200) : RoundsUp a ↔ ¬ 4096 ∣ a.toNat := by
  rw [← pageAllignedRound_first_iff h]
  refine ⟨fun hround => hround.2, fun hfirst => ⟨BitVec.eq_of_toNat_eq ?_, hfirst⟩⟩
  exact hfirst.unique (roundUp_first h)

/-- Behind `e` every block starts at the first page boundary behind the one before it, and the next one would start
at `f`. -/
def Tight : ℕ → List Block → ℕ → Prop
  | e, [], f => FirstMultiple 4096 e f
  | e, b :: bs, f => FirstMultiple 4096 e b.start.toNat ∧ Tight b.stop bs f

def Inexact (endBss : Word) (bs : List Block) : Prop :=
  ¬ 4096 ∣ endBss.toNat ∧ ∀ b ∈ bs, b.nbytes = 0#32 ∨ ¬ 4096 ∣ b.nbytes.toNat

instance {endBss : Word} : Decidable (Inexact endBss bs) := inferInstanceAs (Decidable (_ ∧ _))

theorem Frontier.dvd (h : Frontier s lo) : 4096 ∣ s.bootFree.toNat := by
  have ha := h.aligned
  rw [pgoff_eq] at ha
  exact Nat.dvd_of_mod_eq_zero ha

theorem bootCall_first_iff (h : Frontier s lo) (hc : BootCall NoWrap s b s') :
    FirstMultiple 4096 b.stop s'.bootFree.toNat ↔ b.nbytes = 0#32 ∨ ¬ 4096 ∣ b.nbytes.toNat := by
  obtain ⟨hw, hr⟩ := hc
  obtain ⟨hstart, hle, rfl⟩ := returns_bootAlloc.mp hr
  have hdvd := h.dvd
  rw [Block.stop, hstart]
  by_cases hn : b.nbytes = 0#32
  · refine iff_of_true ?_ (Or.inl hn)
    obtain ⟨p, hp⟩ := hdvd
    rw [if_pos hn, bootFree_setBootNext h.ne_zero, hn, hp]
    exact firstMultiple_self
  · rw [if_neg hn, bootFree_advanced hn hw, toNat_advanced hn hw, Nat.mul_comm, firstMultiple_next_iff
      (by decide), or_iff_right hn]
    exact not_congr (Nat.dvd_add_right hdvd)

theorem tight_iff (hrun : Trace (BootCall NoWrap) s bs s') (h : Frontier s lo) : Tight e bs s'.bootFree.toNat ↔
    FirstMultiple 4096 e s.bootFree.toNat ∧ ∀ b ∈ bs, b.nbytes = 0#32 ∨ ¬ 4096 ∣ b.nbytes.toNat := by
  induction hrun generalizing e with
  | nil s => simp [Tight]
  | cons head tail ih =>
    obtain ⟨h₁, hstart, _⟩ := bootAlloc_step h head
    rw [Tight, ih h₁, bootCall_first_iff h head, hstart, List.forall_mem_cons]

theorem Tight.covers {P : ℕ → Prop} (h : Tight e bs f) (hold : ∀ p, 4096 * p < e → P p)
    (hnew : ∀ b ∈ bs, ∀ p, b.start.toNat ≤ 4096 * p → 4096 * p < b.stop → P p) : ∀ p, 4096 * p < f → P p := by
  induction bs generalizing e with
  | nil => exact fun p hp => hold p (h.below hp)
  | cons b bs ih =>
    obtain ⟨hfirst, hrest⟩ := h
    refine ih hrest (fun p hp => ?_) (fun c hc => hnew c (List.mem_cons_of_mem b hc))
    by_cases hlt : 4096 * p < b.start.toNat
    · exact hold p (hfirst.below hlt)
    · exact hnew b List.mem_cons_self p (Nat.not_lt.mp hlt) hp

theorem skips_first (hrun : Trace (BootCall NoWrap) s bs s') (h : Frontier s lo) (he : e ≤ s.bootFree.toNat)
    (hnot : ¬ FirstMultiple 4096 e s.bootFree.toNat) : ∃ p, e ≤ 4096 * p ∧ 4096 * p < s'.bootFree.toNat ∧
      ∀ b ∈ bs, b.stop ≤ 4096 * p ∨ 4096 * (p + 1) ≤ b.start.toNat := by
  obtain ⟨_, hblocks, hle, _⟩ := bootRun_blocks hrun h
  obtain ⟨k, hk⟩ := h.dvd
  rw [hk] at he hnot
  obtain ⟨p, hp, hlt⟩ := not_firstMultiple hnot he
  refine ⟨p, hp, by omega, fun b hb => Or.inr ?_⟩
  have hlow := (hblocks.inside b hb).1
  omega

theorem skips_page (hrun : Trace (BootCall NoWrap) s bs s') (h : Frontier s lo) (he : e ≤ s.bootFree.toNat)
    (hloose : ¬ Tight e bs s'.bootFree.toNat) : ∃ p, e ≤ 4096 * p ∧ 4096 * p < s'.bootFree.toNat ∧
      ∀ b ∈ bs, b.stop ≤ 4096 * p ∨ 4096 * (p + 1) ≤ b.start.toNat := by
  induction hrun generalizing e with
  | nil s => exact skips_first (.nil s) h he hloose
  | @cons s s₁ s' b bs head tail ih =>
    obtain ⟨h₁, hstart, hstop⟩ := bootAlloc_step h head
    by_cases hfirst : FirstMultiple 4096 e s.bootFree.toNat
    · rw [Tight, hstart, not_and] at hloose
      have hb : s.bootFree.toNat ≤ b.stop := by
        rw [Block.stop, hstart]
        exact Nat.le_add_right _ _
      obtain ⟨p, hp, hlt, hout⟩ := ih h₁ hstop (hloose hfirst)
      exact ⟨p, by omega, hlt, List.forall_mem_cons.mpr ⟨Or.inl hp, hout⟩⟩
    · exact skips_first (.cons head tail) h he hfirst

/-- The kernel image, linked to start at `EXTPHYSMEM`, or one of the blocks has a byte in the page with number
`p`. -/
def HoldsSomething (endBss : Word) (bs : List Block) (p : ℕ) : Prop := ∃ v, v / 4096 = p ∧
  ((kernelBaseAddress + extPhysMem).toNat ≤ v ∧ v < endBss.toNat ∨ ∃ b ∈ bs, b.start.toNat ≤ v ∧ v < b.stop)

def MarksNoEmpty (endBss : Word) (bs : List Block) (s : KState) : Prop := ∀ s', Returns false initPages s () s' →
  ∀ q, pgnum extPhysMem ≤ q → q < s.pagesCount → (s'.pages q).refs = 1#32 →
  HoldsSomething endBss bs (pgnum kernelBaseAddress + q)

theorem initPages_refs_iff (hr : Returns st initPages s () s') (hq : q < s.pagesCount) :
    (s'.pages q).refs = 1#32 ↔ InitUsed s.pagesBasememCount (kernFrame s.bootFree) q := by
  refine ⟨fun href => ?_, fun hused => ?_⟩
  · by_contra hnot
    obtain rfl := returns_initPages.mp hr
    rw [usedCount_eq] at href
    simp only [KState.freeRange, KState.usedRange, KState.setPages_pages, KState.setBootNext_pages,
      KState.setFreeList_pages] at href
    rw [InitUsed] at hnot
    have hfree : (0#32 : Word) ≠ 1#32 := by decide
    split at href
    · exact hfree href
    · split at href
      · omega
      · split at href
        · exact hfree href
        · omega
  · rw [(initPages_pages hr q).1 hused]

theorem lt_kernFrame (h : Frontier s lo) : q < kernFrame s.bootFree ↔ 4096 * (pgnum kernelBaseAddress + q) <
    s.bootFree.toNat := by
  have hbase : kernelBaseAddress.toNat = 4026531840 := by decide
  have hpage : pgnum kernelBaseAddress = 983040 := by decide
  have hwin := h.window
  have hdvd := h.dvd
  rw [kernFrame_eq, BitVec.toNat_sub, hbase, hpage]
  rw [hbase] at hwin
  have hlt := s.bootFree.isLt
  omega

theorem marksNoEmpty_of_tight (h : Frontier s lo) (ht : Tight s₀.endBss.toNat bs s.bootFree.toNat) :
    MarksNoEmpty s₀.endBss bs s := by
  intro s' hr q hext hq href
  have himage : (kernelBaseAddress + extPhysMem).toNat = 4096 * (pgnum kernelBaseAddress + pgnum extPhysMem) := by
    decide
  have hused := (initPages_refs_iff hr hq).mp href
  have hlt : 4096 * (pgnum kernelBaseAddress + q) < s.bootFree.toNat := by
    rw [← lt_kernFrame h]
    rw [InitUsed] at hused
    have hfirst : pgnum extPhysMem = 256 := by decide
    omega
  refine Tight.covers (P := fun p => pgnum kernelBaseAddress + pgnum extPhysMem ≤ p →
    HoldsSomething s₀.endBss bs p) ht
    (fun p hp hlow => ?_) (fun b hb p hstart hstop _ => ?_) _ hlt (by omega)
  · exact ⟨4096 * p, Nat.mul_div_cancel_left p (by decide), Or.inl ⟨by omega, hp⟩⟩
  · exact ⟨4096 * p, Nat.mul_div_cancel_left p (by decide), Or.inr ⟨b, hb, hstart, hstop⟩⟩

theorem tight_of_marksNoEmpty (hrun : Trace (BootCall NoWrap) s₀ bs s) (h₀ : Frontier s₀ s₀.endBss.toNat)
    (h : Frontier s lo)
    (himage : kernelBaseAddress + extPhysMem ≤ s₀.endBss) (hbase : s.pagesBasememCount ≤ pgnum extPhysMem)
    (hcount : kernFrame s.bootFree ≤ s.pagesCount) (hmarks : MarksNoEmpty s₀.endBss bs s) :
    Tight s₀.endBss.toNat bs s.bootFree.toNat := by
  by_contra hloose
  obtain ⟨p, hp, hlt, hout⟩ := skips_page hrun h₀ h₀.low hloose
  have hlink : (kernelBaseAddress + extPhysMem).toNat = 4096 * (pgnum kernelBaseAddress + pgnum extPhysMem) := by
    decide
  rw [BitVec.le_def, hlink] at himage
  obtain ⟨q, rfl⟩ : ∃ q, p = pgnum kernelBaseAddress + q := ⟨p - pgnum kernelBaseAddress, by omega⟩
  rw [← lt_kernFrame h] at hlt
  have hr := (@returns_initPages false s _ ()).mpr rfl
  have hfirst : pgnum extPhysMem = 256 := by decide
  have href := (initPages_refs_iff hr (Nat.lt_of_lt_of_le hlt hcount)).mpr (Or.inr ⟨by omega, hlt⟩)
  obtain ⟨v, hv, ⟨_, hend⟩ | ⟨b, hb, hstart, hstop⟩⟩ := hmarks _ hr q (by omega) (Nat.lt_of_lt_of_le hlt hcount) href
  · omega
  · rcases hout b hb with hbelow | habove
    · omega
    · omega

/-- The turns of its first loop, `i = 0, PAGE_SIZE, ..` below `n`. -/
def visitedPages (count : ℕ) : Set ℕ := {k | k < pageSteps (pageAllignedRound (bytesOf count))}

def arrayPages (count : ℕ) : Set ℕ := {k | 4096 * k < count * 8}

theorem visitedPages_checked {pgdir : Word} (ha : pgoff pgdir = 0) (hr : Returns st (checkKernPgdir pgdir) s () s') :
    ∀ k ∈ visitedPages s.pagesCount, s.checkValue pgdir (uPages + BitVec.ofNat 32 k * pageSize) =
      paddr s.pagesBase + BitVec.ofNat 32 k * pageSize :=
  fun k hk => (((returns_checkKernPgdir ha).mp hr).2.1 k hk).2

theorem pageAllignedRound_dvd (a : Word) : 4096 ∣ (pageAllignedRound a).toNat := by
  rw [toNat_pageAllignedRound_mod]
  omega

theorem visitedPages_eq_iff (h : count * 8 ≤ 4294963200) : visitedPages count = arrayPages count ↔
    ¬ 4096 ∣ count * 8 := by
  have hbytes : (bytesOf count).toNat = count * 8 := by
    rw [bytesOf, BitVec.toNat_ofNat]
    omega
  obtain ⟨r, hr⟩ := pageAllignedRound_dvd (bytesOf count)
  have hsteps : pageSteps (pageAllignedRound (bytesOf count)) = r := by
    rw [pageSteps, hr]
    omega
  have hfirst := pageAllignedRound_first_iff (hbytes.trans_le h)
  rw [hbytes, hr, firstMultiple_iff_lt (by decide)] at hfirst
  rw [← hfirst, visitedPages, hsteps, Set.ext_iff]
  rfl

theorem rounding_tight_iff (ha : a.toNat ≤ 4294963200) (hcount : count * 8 ≤ 4294963200)
    (hn : s₀.bootNextFree = 0#32)
    (hlo : kernelBaseAddress ≤ s₀.endBss) (hhi : s₀.endBss < kernelBaseAddress + pageTableSize)
    (hrun : Trace (BootCall NoWrap) s₀ bs s) :
    (RoundsUp a ↔ ¬ 4096 ∣ a.toNat) ∧
    (Tight s₀.endBss.toNat bs s.bootFree.toNat ↔ Inexact s₀.endBss bs) ∧
    (Inexact s₀.endBss bs → MarksNoEmpty s₀.endBss bs s) ∧
    (kernelBaseAddress + extPhysMem ≤ s₀.endBss → s.pagesBasememCount ≤ pgnum extPhysMem →
      kernFrame s.bootFree ≤ s.pagesCount → MarksNoEmpty s₀.endBss bs s → Inexact s₀.endBss bs) ∧
    (visitedPages count = arrayPages count ↔ ¬ 4096 ∣ count * 8) := by
  have h₀ := frontier_entry hn hlo hhi
  obtain ⟨h, _⟩ := bootRun_blocks hrun h₀
  have hfree : s₀.bootFree = pageAllignedRound s₀.endBss := if_pos hn
  have hlimit := toNat_bootLimit
  have hend : s₀.endBss.toNat < bootLimit.toNat := hhi
  have htight : Tight s₀.endBss.toNat bs s.bootFree.toNat ↔ Inexact s₀.endBss bs := by
    rw [tight_iff hrun h₀, hfree, pageAllignedRound_first_iff (by omega)]
    rfl
  refine ⟨roundsUp_iff ha, htight, fun hin => ?_, fun himage hbase hpages hmarks => ?_, visitedPages_eq_iff hcount⟩
  · exact marksNoEmpty_of_tight h (htight.mpr hin)
  · exact htight.mp (tight_of_marksNoEmpty hrun h₀ h himage hbase hpages hmarks)

def unevenMachine : KState := { smallMachine with endBss := 0xF0110010#32 }

theorem rounding_tight_uneven : RoundsUp 0xF0110010#32 ∧
    (Tight 0xF0110010 [⟨100#32, 0xF0111000#32⟩, ⟨5000#32, 0xF0112000#32⟩] 0xF0114000 ∧
      MarksNoEmpty 0xF0110010#32 [⟨100#32, 0xF0111000#32⟩, ⟨5000#32, 0xF0112000#32⟩]
        (unevenMachine.setBootNext 0xF0114000#32)) ∧
    visitedPages 100 = arrayPages 100 := by
  have h₁ : Returns true (bootAlloc 100#32) unevenMachine 0xF0111000#32 (unevenMachine.setBootNext 0xF0112000#32) :=
    returns_bootAlloc.mpr ⟨by decide, by decide, rfl⟩
  have h₂ : Returns true (bootAlloc 5000#32) (unevenMachine.setBootNext 0xF0112000#32) 0xF0112000#32
      (unevenMachine.setBootNext 0xF0114000#32) := returns_bootAlloc.mpr ⟨by decide, by decide, rfl⟩
  have htrace : Trace (BootCall NoWrap) unevenMachine [⟨100#32, 0xF0111000#32⟩, ⟨5000#32, 0xF0112000#32⟩]
      (unevenMachine.setBootNext 0xF0114000#32) :=
    .cons ⟨fun _ => (by decide : unevenMachine.bootFree.toNat + (100#32).toNat < 4294963200), h₁⟩
      (.single ⟨fun _ => (by decide :
        (unevenMachine.setBootNext 0xF0112000#32).bootFree.toNat + (5000#32).toNat < 4294963200), h₂⟩)
  obtain ⟨hround, htight, hmarks, _, hvisit⟩ := @rounding_tight_iff 0xF0110010#32 unevenMachine _ _ 100 (by decide)
    (by decide) rfl (by decide) (by decide) htrace
  exact ⟨hround.mpr (by decide), ⟨htight.mpr (by decide), hmarks (by decide)⟩, hvisit.mpr (by decide)⟩

/-- The first page boundary that is not below `0x1000` is `0x1000`; a block of a page is followed by an empty page;
512 entries
of eight bytes fill one page, and two are visited. -/
theorem not_rounding_tight : ¬ (∀ a : Word, a.toNat ≤ 4294963200 → RoundsUp a) ∧
    ¬ (∀ s₀ s bs, s₀.bootNextFree = 0#32 → kernelBaseAddress ≤ s₀.endBss →
      s₀.endBss < kernelBaseAddress + pageTableSize →
      Trace (BootCall NoWrap) s₀ bs s → Tight s₀.endBss.toNat bs s.bootFree.toNat) ∧
    ¬ (∀ count, count * 8 ≤ 4294963200 → visitedPages count = arrayPages count) := by
  refine ⟨fun h => ?_, fun h => ?_, fun h => ?_⟩
  · exact (roundsUp_iff (by decide)).mp (h 0x1000#32 (by decide)) (by decide)
  · have hr :
      Returns true (bootAlloc 4096#32) unevenMachine 0xF0111000#32 (unevenMachine.setBootNext 0xF0113000#32) :=
      returns_bootAlloc.mpr ⟨by decide, by decide, rfl⟩
    have htrace : Trace (BootCall NoWrap) unevenMachine [⟨4096#32, 0xF0111000#32⟩]
      (unevenMachine.setBootNext 0xF0113000#32) :=
      .single ⟨fun _ => (by decide : unevenMachine.bootFree.toNat + (4096#32).toNat < 4294963200), hr⟩
    have htight := h _ _ _ rfl (by decide) (by decide) htrace
    have hnext := (tight_iff htrace (frontier_entry rfl (by decide) (by decide))).mp htight
    exact absurd (hnext.2 _ List.mem_cons_self) (by decide)
  · exact (visitedPages_eq_iff (by decide)).mp (h 512 (by decide)) (by decide)

end Cezos
