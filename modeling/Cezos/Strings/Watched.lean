import Cezos.Strings.Memory
import Mathlib.Data.Set.Insert

namespace Cezos.Strings

open Lib

structure Watched where
  mem : Bytes
  reads : Set Word
  writes : Set Word

variable {st : Bool} {mem : Bytes} {w w' : Watched} {p q dst : Word} {b c : Byte} {x y : List Byte} {n k : ℕ}

def watch (mem : Bytes) : Watched := ⟨mem, ∅, ∅⟩

def fetch (p : Word) : Prog Watched Byte := do
  Prog.modify (fun w => { w with reads := insert p w.reads })
  match ← Prog.read (fun w => w.mem p) with
  | some c => return c
  | none => Prog.fault

def put (p : Word) (c : Byte) : Prog Watched Unit := do
  Prog.modify (fun w => { w with writes := insert p w.writes })
  match ← Prog.read (fun w => w.mem p) with
  | some _ => Prog.modify (fun w => { w with mem := Function.update w.mem p (some c) })
  | none => Prog.fault

theorem returns_fetch : Returns st (fetch p) w c w' ↔ w.mem p = some c ∧
    w' = { w with reads := insert p w.reads } := by
  unfold fetch
  simp only [returns_bind, returns_modify, returns_read]
  constructor
  · rintro ⟨_, _, rfl, _, _, ⟨rfl, rfl⟩, h⟩
    cases hp : w.mem p with
    | none => simp [hp] at h
    | some b =>
      simp only [hp, returns_pure] at h
      exact ⟨by rw [h.1], h.2⟩
  · rintro ⟨hp, rfl⟩
    refine ⟨(), _, rfl, _, _, ⟨rfl, rfl⟩, ?_⟩
    simp only [hp, returns_pure, and_self]

theorem returns_put {u : Unit} : Returns st (put p c) w u w' ↔ (∃ b, w.mem p = some b) ∧
    w' = { w with mem := Function.update w.mem p (some c), writes := insert p w.writes } := by
  unfold put
  simp only [returns_bind, returns_modify, returns_read]
  constructor
  · rintro ⟨_, _, rfl, _, _, ⟨rfl, rfl⟩, h⟩
    cases hp : w.mem p with
    | none => simp [hp] at h
    | some b =>
      simp only [hp, returns_modify] at h
      exact ⟨⟨b, rfl⟩, h⟩
  · rintro ⟨⟨b, hp⟩, rfl⟩
    refine ⟨(), _, rfl, _, _, ⟨rfl, rfl⟩, ?_⟩
    simp only [hp, returns_modify]

def span (p : Word) (n : ℕ) : Set Word := {q | (q - p).toNat < n}

theorem mem_span : q ∈ span p n ↔ (q - p).toNat < n := Iff.rfl

instance : Decidable (q ∈ span p n) := inferInstanceAs (Decidable ((q - p).toNat < n))

theorem add_sub_cancel (p : Word) (k : ℕ) : p + BitVec.ofNat 32 k - p = BitVec.ofNat 32 k := by
  rw [BitVec.add_comm, BitVec.add_sub_cancel]

theorem toNat_offset (hk : k < 4294967296) : (p + BitVec.ofNat 32 k - p).toNat = k := by
  rw [add_sub_cancel, BitVec.toNat_ofNat]
  omega

theorem offset_mem_span (hk : k < 4294967296) : p + BitVec.ofNat 32 k ∈ span p n ↔ k < n := by
  rw [mem_span, toNat_offset hk]

theorem mem_span_iff (hn : n ≤ 4294967296) : q ∈ span p n ↔ ∃ k < n, q = p + BitVec.ofNat 32 k := by
  constructor
  · intro h
    refine ⟨(q - p).toNat, h, ?_⟩
    rw [BitVec.ofNat_toNat, BitVec.setWidth_eq, BitVec.add_comm, BitVec.sub_add_cancel]
  · rintro ⟨k, hk, rfl⟩
    exact (offset_mem_span (by omega)).mpr hk

@[simp] theorem span_zero : span p 0 = ∅ := by
  ext q
  simp [mem_span]

theorem span_mono (h : n ≤ k) : span p n ⊆ span p k := fun _ hq => Nat.lt_of_lt_of_le hq h

theorem span_succ (hn : n < 4294967296) : span p (n + 1) = insert (p + BitVec.ofNat 32 n) (span p n) := by
  ext q
  rw [Set.mem_insert_iff, mem_span_iff (by omega), mem_span_iff (by omega)]
  constructor
  · rintro ⟨k, hk, rfl⟩
    rcases Nat.lt_succ_iff_lt_or_eq.mp hk with hlt | rfl
    · exact Or.inr ⟨k, hlt, rfl⟩
    · exact Or.inl rfl
  · rintro (rfl | ⟨k, hk, rfl⟩)
    · exact ⟨n, Nat.lt_succ_self n, rfl⟩
    · exact ⟨k, Nat.lt_succ_of_lt hk, rfl⟩

theorem span_cons (hn : n < 4294967296) : span p (n + 1) = insert p (span (p + 1#32) n) := by
  ext q
  rw [Set.mem_insert_iff, mem_span_iff (by omega), mem_span_iff (by omega)]
  constructor
  · rintro ⟨k, hk, rfl⟩
    cases k with
    | zero => exact Or.inl (BitVec.add_zero p)
    | succ k =>
      refine Or.inr ⟨k, by omega, ?_⟩
      rw [Nat.add_comm, BitVec.ofNat_add, ← BitVec.add_assoc]
  · rintro (rfl | ⟨k, hk, rfl⟩)
    · exact ⟨0, Nat.succ_pos n, (BitVec.add_zero q).symm⟩
    · refine ⟨k + 1, by omega, ?_⟩
      rw [Nat.add_comm k, BitVec.ofNat_add, ← BitVec.add_assoc]

theorem written_outside (h : p ∉ span dst x.length) : written mem dst x p = mem p := written_of_le (Nat.not_lt.mp h)

theorem written_inside (hx : x.length ≤ 4294967296) (hk : k < x.length) :
    written mem dst x (dst + BitVec.ofNat 32 k) = x[k]? := by
  rw [List.getElem?_eq_getElem hk]
  exact written_of_lt (by omega) (List.getElem?_eq_getElem hk)

theorem written_holds (hx : x.length ≤ 4294967296) : Holds (written mem dst x) dst x :=
  holds_of_get (fun _ hk => written_inside hx hk)

end Cezos.Strings
