import Cezos.Lib.Radix

/-!
Counters of references. Cells hold at most one target each; the tally of a target is the number of cells that hold
it.
-/

namespace Cezos.Lib

variable {C T : Type} [DecidableEq T]

def tally (A : Finset C) (g : C → Option T) (q : T) : ℕ := (A.filter (fun c => g c = some q)).card

variable {A B : Finset C} {g g' : C → Option T} {q : T} {c : C}

theorem tally_le : tally A g q ≤ A.card := Finset.card_filter_le _ _

theorem tally_eq_zero : tally A g q = 0 ↔ ∀ c ∈ A, g c ≠ some q := by
  rw [tally, Finset.card_eq_zero, Finset.filter_eq_empty_iff]

theorem tally_congr (h : ∀ c ∈ A, g' c = g c) : tally A g' q = tally A g q := by
  have hfilter : A.filter (fun c => g' c = some q) = A.filter (fun c => g c = some q) := by
    apply Finset.filter_congr
    intro c hc
    rw [h c hc]
  rw [tally, tally, hfilter]

variable [DecidableEq C]

theorem tally_write (hc : c ∈ A) (h : ∀ x ∈ A, x ≠ c → g' x = g x) :
    tally A g' q + (if g c = some q then 1 else 0) = tally A g q + (if g' c = some q then 1 else 0) := by
  apply Radix.card_filter_update A (fun x => g x = some q) (fun x => g' x = some q) hc
  intro x hx hne
  rw [h x hx hne]

theorem tally_union (hB : ∀ c ∈ B, g c = none) : tally (A ∪ B) g q = tally A g q := by
  have hnone : B.filter (fun c => g c = some q) = ∅ := by
    rw [Finset.filter_eq_empty_iff]
    intro c hc
    rw [hB c hc]
    simp
  rw [tally, tally, Finset.filter_union, hnone, Finset.union_empty]

end Cezos.Lib
