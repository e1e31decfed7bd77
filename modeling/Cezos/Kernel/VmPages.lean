import Cezos.Kernel.VmRuns

namespace Cezos

open Lib

inductive PageUse
  | free
  | directory (task : ℕ)
  | table (task i : ℕ)
  | held

def TaskSession.UsedAs (x : TaskSession) (q : ℕ) : PageUse → Prop
  | .free => x.s.OnFreeList q
  | .directory task => task ∈ x.started ∧ x.dir task = q
  | .table task i => task ∈ x.started ∧ i ∈ lowDir ∧ pteTarget (x.s.mem (x.dir task) i) = some q
  | .held => x.Owns x.dirs q

variable {st : Bool} {s s₀ s' : KState} {x y : TaskSession} {pool : Finset ℕ} {L : List ℕ} {c : VmCall}
    {cs : List VmCall}
  {q task i kf gone : ℕ} {m₀ : ℕ → ℕ → Word} {u v : PageUse} {va : Word}

namespace VmInv

theorem table_iff (h : VmInv m₀ kf gone x pool L) : x.s.IsTable x.dirs q ↔ ∃ task i, x.UsedAs q (.table task i) := by
  constructor
  · rintro ⟨f, hf, i, hi, hc⟩
    rcases Finset.mem_insert.mp hf with rfl | hf
    · have habs : Radix.child pteTarget x.s.mem x.kernDir i = none := pteTarget_absent (h.empty i hi)
      rw [habs] at hc
      cases hc
    · obtain ⟨task, ht, rfl⟩ := Finset.mem_image.mp hf
      exact ⟨task, i, ht, hi, hc⟩
  · rintro ⟨task, i, ht, hi, hc⟩
    exact ⟨_, TaskSession.dir_mem ht, i, hi, hc⟩

theorem directory_iff (h : VmInv m₀ kf gone x pool L) (hq : q ∈ pool) :
    q ∈ x.dirs ↔ ∃ task, x.UsedAs q (.directory task) := by
  constructor
  · intro hd
    rcases Finset.mem_insert.mp hd with rfl | hd
    · exact absurd (h.kernDir_eq ▸ hq) h.window.dir.1
    · exact Finset.mem_image.mp hd
  · rintro ⟨task, ht, rfl⟩
    exact TaskSession.dir_mem ht

theorem used (h : VmInv m₀ kf gone x pool L) (hq : q ∈ pool) : ∃ u, x.UsedAs q u := by
  by_cases hl : q ∈ L
  · exact ⟨.free, (onFreeList_iff h.balanced.chain).mpr hl⟩
  · by_cases hd : q ∈ x.dirs
    · obtain ⟨task, ht⟩ := (h.directory_iff hq).mp hd
      exact ⟨_, ht⟩
    · by_cases ht : x.s.IsTable x.dirs q
      · obtain ⟨task, i, hu⟩ := h.table_iff.mp ht
        exact ⟨_, hu⟩
      · have hg : q ∈ x.given := (((h.cover q hq).resolve_left hl).resolve_left ht).resolve_left hd
        exact ⟨.held, hg, fun ho => hl ((onFreeList_iff h.balanced.chain).mp ho), hd, ht⟩

end VmInv

end Cezos
