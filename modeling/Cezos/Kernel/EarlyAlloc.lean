import Cezos.Kernel.KernLayout
import Cezos.Lib.Trace

namespace Cezos

open Lib

variable {s₀ s s' : KState} {lo : ℕ}

structure Block where
  nbytes : Word
  start : Word

def Block.stop (b : Block) : ℕ := b.start.toNat + b.nbytes.toNat

def bootLimit : Word := kernelBaseAddress + pageTableSize

theorem toNat_bootLimit : bootLimit.toNat = 4030726144 := by decide

def NoWrap (s : KState) (nbytes : Word) : Prop := nbytes ≠ 0#32 → s.bootFree.toNat + nbytes.toNat < 4294963200

inductive BootCall (ok : KState → Word → Prop) (s : KState) : Block → KState → Prop
  | mk {s' : KState} {b : Block} (hok : ok s b.nbytes) (hr : Returns true (bootAlloc b.nbytes) s b.start s') :
      BootCall ok s b s'

structure Frontier (s : KState) (lo : ℕ) : Prop where
  aligned : pgoff s.bootFree = 0
  low : lo ≤ s.bootFree.toNat
  window : kernelBaseAddress.toNat ≤ s.bootFree.toNat
  high : s.bootFree.toNat ≤ bootLimit.toNat

theorem Frontier.ne_zero (h : Frontier s lo) : s.bootFree ≠ 0#32 := by
  have hwin := h.window
  intro hz
  rw [hz] at hwin
  exact absurd hwin (by decide)

theorem bootFree_setBootNext {a : Word} (h : a ≠ 0#32) : (s.setBootNext a).bootFree = a := if_neg h

theorem bootAlloc_loops {n : Word} (hn : n ≠ 0#32) (h : bootLimit < pageAllignedRound (s.bootFree + n)) :
    ∃ s', Loops (bootAlloc n) s "Not enought memory\n" s' := by
  refine ⟨s.setBootNext (pageAllignedRound (s.bootFree + n)), ?_⟩
  simp only [bootAlloc, loops_bind, loops_modify, loops_read, false_or, returns_modify, returns_read, loops_ite,
    loops_errorLoop, initNextFree]
  exact ⟨(), _, rfl, _, _, ⟨rfl, rfl⟩, Or.inr ⟨hn, (), _, rfl, Or.inl ⟨h, trivial, rfl⟩⟩⟩

theorem toNat_advanced {n : Word} (hn : n ≠ 0#32) (h : NoWrap s n) :
    (pageAllignedRound (s.bootFree + n)).toNat = ((s.bootFree.toNat + n.toNat) / 4096 + 1) * 4096 := by
  have hlt := h hn
  have hadd : (s.bootFree + n).toNat = s.bootFree.toNat + n.toNat := by
    rw [BitVec.toNat_add]
    omega
  rw [toNat_pageAllignedRound (by omega), hadd]

theorem bootFree_advanced {n : Word} (hn : n ≠ 0#32) (h : NoWrap s n) :
    (s.setBootNext (pageAllignedRound (s.bootFree + n))).bootFree = pageAllignedRound (s.bootFree + n) := by
  have hval := toNat_advanced hn h
  apply bootFree_setBootNext
  intro hz
  rw [hz, BitVec.toNat_ofNat] at hval
  omega

theorem bootAlloc_step {b : Block} (h : Frontier s lo) (hc : BootCall NoWrap s b s') :
    Frontier s' lo ∧ b.start = s.bootFree ∧ b.stop ≤ s'.bootFree.toNat := by
  obtain ⟨hw, hr⟩ := hc
  obtain ⟨hstart, hle, rfl⟩ := returns_bootAlloc.mp hr
  rw [Block.stop, hstart]
  have hbase : kernelBaseAddress.toNat = 4026531840 := by decide
  have hwin := h.window
  have hfree := h.ne_zero
  by_cases hn : b.nbytes = 0#32
  · rw [if_pos hn, bootFree_setBootNext hfree, hn]
    refine ⟨⟨?_, ?_, ?_, ?_⟩, rfl, by simp⟩
    · rw [bootFree_setBootNext hfree]
      exact h.aligned
    · rw [bootFree_setBootNext hfree]
      exact h.low
    · rw [bootFree_setBootNext hfree]
      exact h.window
    · rw [bootFree_setBootNext hfree]
      exact h.high
  · have hval := toNat_advanced hn hw
    have hnext := bootFree_advanced hn hw
    have hlow := h.low
    have hlim := hle hn
    rw [BitVec.lt_def, not_lt] at hlim
    rw [if_neg hn, hnext]
    refine ⟨⟨?_, ?_, ?_, ?_⟩, rfl, ?_⟩
    · rw [hnext, pgoff_eq, hval]
      omega
    · rw [hnext, hval]
      omega
    · rw [hnext, hval]
      omega
    · rw [hnext]
      exact hlim
    · rw [hval]
      omega

structure BlocksApart (lo : ℕ) (bs : List Block) : Prop where
  aligned : ∀ b ∈ bs, pgoff b.start = 0
  apart : bs.Pairwise (fun b c => b.stop ≤ c.start.toNat)
  inside : ∀ b ∈ bs, lo ≤ b.start.toNat ∧ b.stop ≤ bootLimit.toNat

/-- A request that does not fit never returns, and `boot_alloc(0)` answers an address behind every block and leaves
everything as it was: all that can happen to the static is that it gets its first value. -/
structure FrontierKept (s : KState) (bs : List Block) : Prop where
  refuses : ∀ n, bootLimit.toNat < s.bootFree.toNat + n.toNat →
    ((∃ s', Loops (bootAlloc n) s "Not enought memory\n" s') ↔ NoWrap s n)
  query : ∃ a s', Returns true (bootAlloc 0#32) s a s' ∧ (∀ b ∈ bs, b.stop ≤ a.toNat) ∧
    s' = s.setBootNext s.bootFree ∧ (s.bootNextFree ≠ 0#32 → s' = s) ∧ ∀ n, bootAlloc n s' = bootAlloc n s

theorem bootRun_blocks {bs : List Block} (hrun : Trace (BootCall NoWrap) s bs s') (h : Frontier s lo) :
    Frontier s' lo ∧ BlocksApart s.bootFree.toNat bs ∧ s.bootFree.toNat ≤ s'.bootFree.toNat ∧
      ∀ b ∈ bs, b.stop ≤ s'.bootFree.toNat := by
  induction hrun with
  | nil s => exact ⟨h, ⟨by simp, .nil, by simp⟩, Nat.le_refl _, by simp⟩
  | @cons s s₁ s' b bs head tail ih =>
    obtain ⟨h₁, hstart, hstop⟩ := bootAlloc_step h head
    obtain ⟨h', hbs, hle, hend⟩ := ih h₁
    have hb : s.bootFree.toNat ≤ b.stop := by
      rw [Block.stop, hstart]
      exact Nat.le_add_right _ _
    have hlim := h'.high
    have hend' : ∀ c ∈ b :: bs, c.stop ≤ s'.bootFree.toNat := by
      intro c hc
      rcases List.mem_cons.mp hc with rfl | hc
      · omega
      · exact hend c hc
    refine ⟨h', ⟨fun c hc => ?_, List.pairwise_cons.mpr ⟨fun c hc => ?_, hbs.apart⟩, fun c hc => ?_⟩, by omega,
      hend'⟩
    · rcases List.mem_cons.mp hc with rfl | hc
      · rw [hstart]
        exact h.aligned
      · exact hbs.aligned c hc
    · exact Nat.le_trans hstop (hbs.inside c hc).1
    · have hc' := hend' c hc
      refine ⟨?_, by omega⟩
      rcases List.mem_cons.mp hc with rfl | hc
      · rw [hstart]
      · have hc₁ := (hbs.inside c hc).1
        omega

theorem noWrap_of_inside {bs : List Block} (hrun : Trace (BootCall (fun _ _ => True)) s bs s')
    (h : ∀ b ∈ bs, b.stop ≤ bootLimit.toNat) : Trace (BootCall NoWrap) s bs s' := by
  induction hrun with
  | nil s => exact .nil s
  | cons head tail ih =>
    obtain ⟨_, hr⟩ := head
    refine .cons ⟨fun hn => ?_, hr⟩ (ih (fun b hb => h b (List.mem_cons_of_mem _ hb)))
    have hstop := h _ List.mem_cons_self
    rw [Block.stop, (returns_bootAlloc.mp hr).1, toNat_bootLimit] at hstop
    omega

/-- A request that wraps around lands `next_free` below the limit. -/
theorem Frontier.wrapped {n : Word} (h : Frontier s lo) (hw : ¬ NoWrap s n) :
    (pageAllignedRound (s.bootFree + n)).toNat ≤ bootLimit.toNat := by
  have hhigh := h.high
  rw [NoWrap, Classical.not_imp] at hw
  rw [toNat_bootLimit] at hhigh ⊢
  have hlt := n.isLt
  -- the last page of the address space rounds to zero, a sum behind it has wrapped around
  rw [toNat_pageAllignedRound_mod, BitVec.toNat_add]
  omega

theorem frontierKept {bs : List Block} (h : Frontier s lo) (hend : ∀ b ∈ bs, b.stop ≤ s.bootFree.toNat) :
    FrontierKept s bs := by
  have hhigh := h.high
  rw [toNat_bootLimit] at hhigh
  constructor
  · intro n hn
    rw [toNat_bootLimit] at hn
    have hn0 : n ≠ 0#32 := by
      rintro rfl
      rw [BitVec.toNat_ofNat] at hn
      omega
    constructor
    · rintro ⟨s', hl⟩
      by_contra hwrap
      refine hl.not_returns (returns_bootAlloc.mpr ⟨rfl, fun _ => ?_, rfl⟩ : Returns false (bootAlloc n) s _ _)
      rw [BitVec.lt_def, not_lt]
      exact h.wrapped hwrap
    · intro hw
      apply bootAlloc_loops hn0
      rw [BitVec.lt_def, toNat_bootLimit, toNat_advanced hn0 hw]
      omega
  · refine ⟨_, _, returns_bootAlloc.mpr ⟨rfl, by simp, rfl⟩, hend, rfl, fun hnext => ?_, fun n => ?_⟩
    · have hb : s.bootFree = s.bootNextFree := if_neg hnext
      rw [if_pos rfl, hb]
      rfl
    · rw [if_pos rfl]
      simp only [bootAlloc, bind, Prog.bind, Prog.modify, initNextFree, bootFree_setBootNext h.ne_zero]
      rfl

theorem frontier_entry (hn : s.bootNextFree = 0#32) (hlo : kernelBaseAddress ≤ s.endBss)
    (hhi : s.endBss < bootLimit) :
    Frontier s s.endBss.toNat := by
  have hbase : kernelBaseAddress.toNat = 4026531840 := by decide
  rw [BitVec.le_def, hbase] at hlo
  rw [BitVec.lt_def, toNat_bootLimit] at hhi
  have hfree : s.bootFree = pageAllignedRound s.endBss := if_pos hn
  have hval := toNat_pageAllignedRound (a := s.endBss) (by omega)
  refine ⟨?_, ?_, ?_, ?_⟩
  · rw [hfree, pgoff_eq, hval]
    omega
  · rw [hfree, hval]
    omega
  · rw [hfree, hval, hbase]
    omega
  · rw [hfree, hval, toNat_bootLimit]
    omega

theorem bootAlloc_blocks {bs : List Block} (hn : s₀.bootNextFree = 0#32) (hlo : kernelBaseAddress ≤ s₀.endBss)
    (hhi : s₀.endBss < kernelBaseAddress + pageTableSize) (hrun : Trace (BootCall (fun _ _ => True)) s₀ bs s) :
    (BlocksApart s₀.endBss.toNat bs ↔ Trace (BootCall NoWrap) s₀ bs s) ∧
      (Trace (BootCall NoWrap) s₀ bs s → FrontierKept s bs) := by
  have h₀ := frontier_entry hn hlo hhi
  refine ⟨⟨fun h => noWrap_of_inside hrun (fun b hb => (h.inside b hb).2), fun h => ?_⟩, fun h => ?_⟩
  · obtain ⟨_, hbs, _⟩ := bootRun_blocks h h₀
    refine ⟨hbs.aligned, hbs.apart, fun b hb => ?_⟩
    have hb' := hbs.inside b hb
    have hlow := h₀.low
    omega
  · obtain ⟨h', _, _, hend⟩ := bootRun_blocks h h₀
    exact frontierKept h' hend

theorem smallMachine_call (n : Word) (hn : n ≠ 0#32) (hle : ¬ bootLimit < pageAllignedRound (0xF0111000#32 + n)) :
    Returns true (bootAlloc n) smallMachine 0xF0111000#32
      (smallMachine.setBootNext (pageAllignedRound (0xF0111000#32 + n))) := by
  have hfree : smallMachine.bootFree = 0xF0111000#32 := by decide
  rw [returns_bootAlloc, hfree, if_neg hn]
  exact ⟨rfl, fun _ => hle, rfl⟩

theorem bootAlloc_blocks_small : BlocksApart 0xF0110000 [⟨100#32, 0xF0111000#32⟩, ⟨5000#32, 0xF0112000#32⟩] ∧
    FrontierKept (smallMachine.setBootNext 0xF0114000#32) [⟨100#32, 0xF0111000#32⟩, ⟨5000#32, 0xF0112000#32⟩] := by
  have h₁ : Returns true (bootAlloc 100#32) smallMachine 0xF0111000#32 (smallMachine.setBootNext 0xF0112000#32) :=
    smallMachine_call 100#32 (by decide) (by decide)
  have h₂ : Returns true (bootAlloc 5000#32) (smallMachine.setBootNext 0xF0112000#32) 0xF0112000#32
      (smallMachine.setBootNext 0xF0114000#32) := returns_bootAlloc.mpr ⟨by decide, by decide, rfl⟩
  have hrun : Trace (BootCall NoWrap) smallMachine [⟨100#32, 0xF0111000#32⟩, ⟨5000#32, 0xF0112000#32⟩]
      (smallMachine.setBootNext 0xF0114000#32) :=
    .cons ⟨fun _ => (by decide : smallMachine.bootFree.toNat + (100#32).toNat < 4294963200), h₁⟩
      (.single ⟨fun _ => (by decide :
        (smallMachine.setBootNext 0xF0112000#32).bootFree.toNat + (5000#32).toNat < 4294963200), h₂⟩)
  have hany : Trace (BootCall (fun _ _ => True)) smallMachine [⟨100#32, 0xF0111000#32⟩, ⟨5000#32, 0xF0112000#32⟩]
      (smallMachine.setBootNext 0xF0114000#32) := .cons ⟨trivial, h₁⟩ (.single ⟨trivial, h₂⟩)
  have h := bootAlloc_blocks rfl (by decide) (by decide) hany
  exact ⟨h.1.mpr hrun, h.2 hrun⟩

/-- A request of `0xFFFFFFFF` bytes returns, and the next block starts where it started. -/
theorem not_bootAlloc_blocks : ¬ ∀ (s₀ s : KState) (bs : List Block), s₀.bootNextFree = 0#32 →
    kernelBaseAddress ≤ s₀.endBss → s₀.endBss < kernelBaseAddress + pageTableSize →
    Trace (BootCall (fun _ _ => True)) s₀ bs s → BlocksApart s₀.endBss.toNat bs := by
  intro h
  have hr := smallMachine_call 0xFFFFFFFF#32 (by decide) (by decide)
  have hbs := h smallMachine _ [⟨0xFFFFFFFF#32, 0xF0111000#32⟩] rfl (by decide) (by decide) (.single ⟨trivial, hr⟩)
  exact absurd (hbs.inside _ List.mem_cons_self).2 (by decide)

end Cezos
