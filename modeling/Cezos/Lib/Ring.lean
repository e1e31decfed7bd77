import Mathlib.Logic.Function.Basic
import Mathlib.Tactic.Common

namespace Cezos.Lib

variable {β : Type} {n a i j : ℕ} {q : List β} {x : β}

def slot (n a i : ℕ) : ℕ := if a + i < n then a + i else a + i - n

theorem slot_lt (ha : a < n) (hi : i < n) : slot n a i < n := by
  unfold slot
  split <;> omega

theorem slot_zero (ha : a < n) : slot n a 0 = a := by
  rw [slot, Nat.add_zero, if_pos ha]

theorem slot_inj (hi : i < n) (hj : j < n) (h : slot n a i = slot n a j) : i = j := by
  unfold slot at h
  split at h <;> split at h <;> omega

def nextSlot (n i : ℕ) : ℕ := if i + 1 = n then 0 else i + 1

theorem nextSlot_slot (ha : a < n) (hi : i < n) : nextSlot n (slot n a i) = slot n a (i + 1) := by
  unfold nextSlot slot
  split <;> split <;> split <;> omega

theorem slot_nextSlot (hi : i + 1 < n) : slot n (nextSlot n a) i = slot n a (i + 1) := by
  unfold nextSlot slot
  split <;> split <;> split <;> omega

/-- A buffer used round and round: it is read at `rpos` and written at `wpos`. -/
structure RingBuffer (β : Type) where
  buf : ℕ → β
  rpos : ℕ
  wpos : ℕ

namespace RingBuffer

variable {r : RingBuffer β}

def push (n : ℕ) (r : RingBuffer β) (x : β) : RingBuffer β :=
  ⟨Function.update r.buf r.wpos x, r.rpos, nextSlot n r.wpos⟩

def pop (n : ℕ) (r : RingBuffer β) : RingBuffer β := ⟨r.buf, nextSlot n r.rpos, r.wpos⟩

/-- The ring holds the queue `q`. One place stays free, so that an empty ring does not look like a full one. -/
structure Holds (n : ℕ) (r : RingBuffer β) (q : List β) : Prop where
  read : r.rpos < n
  room : q.length < n
  write : r.wpos = slot n r.rpos q.length
  stored : ∀ i < q.length, some (r.buf (slot n r.rpos i)) = q[i]?

theorem holds_nil (hr : r.rpos < n) (hw : r.wpos = r.rpos) : r.Holds n [] where
  read := hr
  room := Nat.zero_lt_of_lt hr
  write := by rw [List.length_nil, slot_zero hr, hw]
  stored i hi := absurd hi (Nat.not_lt_zero i)

namespace Holds

theorem write_lt (h : r.Holds n q) : r.wpos < n := by
  rw [h.write]
  exact slot_lt h.read h.room

theorem push (h : r.Holds n q) (hn : q.length + 1 < n) : (r.push n x).Holds n (q ++ [x]) where
  read := h.read
  room := by rwa [List.length_append, List.length_singleton]
  write := by
    change nextSlot n r.wpos = slot n r.rpos (q ++ [x]).length
    rw [List.length_append, List.length_singleton, ← nextSlot_slot h.read h.room, ← h.write]
  stored i hi := by
    rw [List.length_append, List.length_singleton] at hi
    change some (Function.update r.buf r.wpos x (slot n r.rpos i)) = _
    rcases Nat.lt_succ_iff_lt_or_eq.mp hi with hlt | rfl
    · have hne : slot n r.rpos i ≠ r.wpos := by
        rw [h.write]
        exact fun he => absurd (slot_inj (by omega) h.room he) (by omega)
      rw [Function.update_of_ne hne, h.stored i hlt, List.getElem?_append_left hlt]
    · rw [← h.write, Function.update_self, List.getElem?_append_right (Nat.le_refl _), Nat.sub_self]
      rfl

theorem push_full (h : r.Holds n q) (hn : q.length + 1 = n) : (r.push n x).Holds n [] := by
  refine holds_nil h.read ?_
  have hread := h.read
  change nextSlot n r.wpos = r.rpos
  rw [h.write, nextSlot_slot h.read h.room, hn, slot, if_neg (by omega), Nat.add_sub_cancel]

theorem pop (h : r.Holds n (x :: q)) : r.buf r.rpos = x ∧ (r.pop n).Holds n q := by
  have hroom := h.room
  rw [List.length_cons] at hroom
  refine ⟨?_, ?_, by omega, ?_, fun i hi => ?_⟩
  · have hfirst := h.stored 0 (by simp)
    rw [slot_zero h.read] at hfirst
    exact Option.some.inj hfirst
  · change nextSlot n r.rpos < n
    rw [← slot_zero h.read, nextSlot_slot h.read (by omega)]
    exact slot_lt h.read (by omega)
  · exact h.write.trans (slot_nextSlot hroom).symm
  · have hnext := h.stored (i + 1) (by rw [List.length_cons]; omega)
    rw [← slot_nextSlot (by omega)] at hnext
    exact hnext

theorem unique {q' : List β} (h : r.Holds n q) (h' : r.Holds n q') : q = q' := by
  have hlen : q.length = q'.length := slot_inj h.room h'.room (h.write.symm.trans h'.write)
  apply List.ext_getElem?
  intro i
  by_cases hi : i < q.length
  · rw [← h.stored i hi, ← h'.stored i (hlen ▸ hi)]
  · rw [List.getElem?_eq_none (Nat.le_of_not_lt hi), List.getElem?_eq_none (hlen ▸ Nat.le_of_not_lt hi)]

theorem empty_iff (h : r.Holds n q) : r.rpos = r.wpos ↔ q = [] := by
  rw [h.write]
  constructor
  · intro he
    have hz := slot_inj (Nat.zero_lt_of_lt h.read) h.room ((slot_zero h.read).trans he)
    exact List.eq_nil_of_length_eq_zero hz.symm
  · rintro rfl
    exact (slot_zero h.read).symm

end Holds

end RingBuffer

end Cezos.Lib
