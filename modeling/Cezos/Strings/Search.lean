import Cezos.Strings.Compare
import Cezos.Strings.Copy
import Mathlib.Data.List.Basic

namespace Cezos.Strings

open Lib

variable {st : Bool} {mem : Bytes} {w w' : Watched} {p s dst src n : Word} {c : Byte} {x : List Byte} {d k fuel : ℕ}

def strcpy (fuel : ℕ) (dst src : Word) : Prog Watched Word := do
  let i ← copyFrom (fun _ => true) (fun i => return i + 1#32) dst src fuel 0#32
  put (dst + i) 0#8
  return dst

def Copies (mem : Bytes) (dst src : Word) (x : List Byte) : Prop :=
  ∃ w, Ends (fun fuel => strcpy fuel dst src) (watch mem) dst w ∧ IsCString w.mem dst x ∧
  w.reads = span src (x.length + 1) ∧
    w.writes = span dst (x.length + 1) ∧ ∀ p, p ∉ span dst (x.length + 1) → w.mem p = mem p

theorem strcpy_returns (hx : IsCString mem src x) (hclear : Clear dst src x.length)
    (hm : Mapped mem dst (x.length + 1))
    (hf : x.length < fuel) : Returns true (strcpy fuel dst src) (watch mem) dst
      ⟨written mem dst (x ++ [0#8]), ∅ ∪ span src (x.length + 1), ∅ ∪ span dst (x.length + 1)⟩ := by
  have hlen := hx.length_lt
  refine returns_bind.mpr ⟨_, _, copy_returns hx hclear (fun k hk => hm k (by omega)) (fun _ _ => rfl)
    (fun k _ w => ?_) hf, ?_⟩
  · refine returns_pure.mpr ⟨?_, rfl⟩
    rw [BitVec.ofNat_add]
  · exact returns_bind.mpr ⟨(), _, terminate_returns hlen (hm _ (Nat.lt_succ_self _)), returns_pure.mpr ⟨rfl, rfl⟩⟩

/-- The copy runs after itself: what it reads is what it wrote `d` bytes before. -/
theorem copyFrom_chases {i : ℕ} (hd : 0 < d) (hdst : dst = src + BitVec.ofNat 32 d)
    (hnz : ∀ j < i + d, w.mem (src + BitVec.ofNat 32 j) ≠ some 0#8) {r : Word} :
    ¬ Returns false (copyFrom (fun _ => true) (fun i => return i + 1#32) dst src fuel (BitVec.ofNat 32 i)) w r
      w' := by
  induction fuel generalizing i w with
  | zero => exact returns_spin
  | succ fuel ih =>
    intro h
    rw [copyFrom] at h
    obtain ⟨c, w₁, hfetch, h⟩ := returns_bind.mp h
    obtain ⟨hc, rfl⟩ := returns_fetch.mp hfetch
    have hne : c ≠ 0#8 := fun hz => hnz i (by omega) (hz ▸ hc)
    rcases returns_ite.mp h with ⟨_, hcopy⟩ | ⟨hstop, _⟩
    · obtain ⟨c', w₂, hfetch, hrest⟩ := returns_bind.mp hcopy
      obtain ⟨hc', rfl⟩ := returns_fetch.mp hfetch
      obtain ⟨_, w₃, hput, hrest⟩ := returns_bind.mp hrest
      obtain ⟨_, rfl⟩ := returns_put.mp hput
      obtain ⟨i', w₄, hnext, hrest⟩ := returns_bind.mp hrest
      obtain ⟨rfl, rfl⟩ := returns_pure.mp hnext
      have hne' : c' ≠ 0#8 := fun hz => hnz i (by omega) (hz ▸ hc')
      rw [show BitVec.ofNat 32 i + 1#32 = BitVec.ofNat 32 (i + 1) from (BitVec.ofNat_add i 1).symm] at hrest
      refine ih (fun j hj => ?_) hrest
      change Function.update w.mem (dst + BitVec.ofNat 32 i) (some c') (src + BitVec.ofNat 32 j) ≠ some 0#8
      by_cases ha : src + BitVec.ofNat 32 j = dst + BitVec.ofNat 32 i
      · rw [ha, Function.update_self]
        exact fun hz => hne' (Option.some.inj hz)
      · rw [Function.update_of_ne ha]
        have hjne : j ≠ d + i := by
          rintro rfl
          rw [hdst, BitVec.ofNat_add, BitVec.add_assoc] at ha
          exact ha rfl
        exact hnz j (by omega)
    · exact absurd ⟨hne, rfl⟩ hstop

theorem strcpy_never (hx : IsCString mem src x) (hclear : ¬ Clear dst src x.length) {r : Word} :
    ¬ Returns false (strcpy fuel dst src) (watch mem) r w := by
  intro h
  obtain ⟨i, w₁, hloop, _⟩ := returns_bind.mp h
  rw [Clear, not_or, Nat.not_lt] at hclear
  have hdst : dst = src + BitVec.ofNat 32 (dst - src).toNat := by
    rw [BitVec.ofNat_toNat, BitVec.setWidth_eq, BitVec.add_comm, BitVec.sub_add_cancel]
  refine copyFrom_chases (Nat.pos_of_ne_zero hclear.1) hdst (i := 0) (fun j hj => ?_) hloop
  have hlt : j < x.length := by omega
  change mem (src + BitVec.ofNat 32 j) ≠ some 0#8
  rw [(holds_append.mp hx.holds).1.get hlt]
  exact fun hz => hx.no_nul (Option.some.inj hz ▸ List.getElem_mem hlt)

theorem strcpy_copies_iff (hx : IsCString mem src x) (hm : Mapped mem dst (x.length + 1)) :
    (Copies mem dst src x ↔ Clear dst src x.length) ∧
      (¬ Clear dst src x.length → ∀ fuel r w, ¬ Returns false (strcpy fuel dst src) (watch mem) r w) := by
  refine ⟨⟨fun h => ?_, fun hclear => ?_⟩, fun hclear fuel r w => strcpy_never hx hclear⟩
  · obtain ⟨w, ⟨N, hN⟩, _⟩ := h
    by_contra hclear
    exact strcpy_never hx hclear (hN N (Nat.le_refl N)).loosen
  · have hlen := hx.length_lt
    have hsize : (x ++ [0#8]).length = x.length + 1 := List.length_append
    refine ⟨_, ⟨x.length + 1, fun fuel hf => strcpy_returns hx hclear hm hf⟩, ⟨?_, hx.no_nul⟩,
      Set.empty_union _, Set.empty_union _, ?_⟩
    · exact written_holds (by omega)
    · intro p hp
      exact written_outside (by rwa [hsize])

theorem strcpy_copies_short : Copies shortString 4#32 1#32 [0x41#8, 0x42#8] := by
  have hroom : Mapped shortString 4#32 3 := by decide
  exact (strcpy_copies_iff shortString_holds hroom).1.mpr (by decide)

def strchrFrom (s : Word) (c : Byte) : ℕ → Word → Prog Watched Word
  | 0, _ => Prog.spin
  | fuel + 1, i => do
    let b ← fetch (s + i)
    if b = 0#8 then return 0#32
    else do
      let b ← fetch (s + i)
      if b = c then return s + i
      else strchrFrom s c fuel (i + 1#32)

def strchr (fuel : ℕ) (s : Word) (c : Byte) : Prog Watched Word := strchrFrom s c fuel 0#32

def memfindFrom (ends : Word) (c : Byte) : ℕ → Word → Prog Watched Word
  | 0, _ => Prog.spin
  | fuel + 1, s =>
    if s < ends then do
      let b ← fetch s
      if b = c then return s
      else memfindFrom ends c fuel (s + 1#32)
    else return s

def memfind (fuel : ℕ) (s : Word) (c : CInt) (n : Word) : Prog Watched Word :=
  memfindFrom (s + n) (c.setWidth 8) fuel s

theorem strchrFrom_returns {i : Word} (hx : IsCString w.mem (s + i) x) (hf : x.length < fuel) :
    Returns true (strchrFrom s c fuel i) w (if c ∈ x then s + i + BitVec.ofNat 32 (x.idxOf c) else 0#32)
      { w with reads := w.reads ∪ span (s + i) (x.idxOf c + 1) } := by
  induction x generalizing i w fuel with
  | nil =>
    obtain ⟨fuel, rfl⟩ : ∃ k, fuel = k + 1 := ⟨fuel - 1, by omega⟩
    refine returns_bind.mpr ⟨0#8, _, returns_fetch.mpr ⟨hx.nil, rfl⟩,
      returns_ite.mpr (Or.inl ⟨rfl, returns_pure.mpr ⟨rfl, ?_⟩⟩)⟩
    rw [List.idxOf_nil, span_succ (by omega), span_zero, BitVec.add_zero, Set.union_insert, Set.union_empty]
  | cons b x ih =>
    obtain ⟨fuel, rfl⟩ : ∃ k, fuel = k + 1 := ⟨fuel - 1, by omega⟩
    have hlen := hx.length_lt
    have hshort : x.idxOf c ≤ x.length := List.idxOf_le_length
    rw [List.length_cons] at hlen hf
    refine returns_bind.mpr ⟨b, _, returns_fetch.mpr ⟨hx.head, rfl⟩, returns_ite.mpr (Or.inr ⟨hx.head_ne, ?_⟩)⟩
    refine returns_bind.mpr ⟨b, _, returns_fetch.mpr ⟨hx.head, rfl⟩, ?_⟩
    rw [Set.insert_idem]
    by_cases hb : b = c
    · subst hb
      refine returns_ite.mpr (Or.inl ⟨rfl, returns_pure.mpr ⟨?_, ?_⟩⟩)
      · simp
      · rw [List.idxOf_cons_self, span_succ (by omega), span_zero, BitVec.add_zero, Set.union_insert,
          Set.union_empty]
    · refine returns_ite.mpr (Or.inr ⟨hb, ?_⟩)
      have hnext : s + (i + 1#32) = s + i + 1#32 := (BitVec.add_assoc _ _ _).symm
      have htail : IsCString w.mem (s + (i + 1#32)) x := hnext ▸ hx.tail
      have hrest := @ih { w with reads := insert (s + i) w.reads } fuel (i + 1#32) htail (by omega)
      have hmem : c ∈ b :: x ↔ c ∈ x := by
        rw [List.mem_cons, or_iff_right (fun he => hb he.symm)]
      have hindex : (b :: x).idxOf c = x.idxOf c + 1 := List.idxOf_cons_ne _ hb
      rw [hnext, add_succ_length] at hrest
      rw [if_congr hmem rfl rfl, hindex, span_cons (by omega), Set.union_insert, ← Set.insert_union]
      exact hrest

theorem strchr_ends (hx : IsCString mem s x) : Ends (fun fuel => strchr fuel s c) (watch mem)
    (if c ∈ x then s + BitVec.ofNat 32 (x.idxOf c) else 0#32) ⟨mem, span s (x.idxOf c + 1), ∅⟩ := by
  refine ⟨x.length + 1, fun fuel hf => ?_⟩
  have hstart : IsCString (watch mem).mem (s + 0#32) x := (BitVec.add_zero s).symm ▸ hx
  have hr := strchrFrom_returns (c := c) hstart (show x.length < fuel from hf)
  rw [BitVec.add_zero, watch, Set.empty_union] at hr
  exact hr

theorem memfindFrom_returns {ends : Word} (hx : Holds w.mem p x) (hends : p.toNat + x.length = ends.toNat)
    (hf : x.length < fuel) :
    Returns true (memfindFrom ends c fuel p) w (p + BitVec.ofNat 32 (x.idxOf c))
      { w with reads := w.reads ∪ span p (min (x.idxOf c + 1) x.length) } := by
  have hlt := ends.isLt
  induction x generalizing p w fuel with
  | nil =>
    obtain ⟨fuel, rfl⟩ : ∃ k, fuel = k + 1 := ⟨fuel - 1, by omega⟩
    rw [List.length_nil, Nat.add_zero] at hends
    have hstop : ¬ p < ends := fun hp => by
      rw [BitVec.lt_def] at hp
      omega
    refine returns_ite.mpr (Or.inr ⟨hstop, returns_pure.mpr ⟨?_, ?_⟩⟩)
    · rw [List.idxOf_nil]
      exact BitVec.add_zero p
    · rw [List.length_nil, Nat.min_zero, span_zero, Set.union_empty]
  | cons b x ih =>
    obtain ⟨fuel, rfl⟩ : ∃ k, fuel = k + 1 := ⟨fuel - 1, by omega⟩
    have hshort : x.idxOf c ≤ x.length := List.idxOf_le_length
    rw [List.length_cons] at hends hf
    have hgo : p < ends := by
      rw [BitVec.lt_def]
      omega
    refine returns_ite.mpr (Or.inl ⟨hgo, returns_bind.mpr ⟨b, _, returns_fetch.mpr ⟨hx.1, rfl⟩, ?_⟩⟩)
    by_cases hb : b = c
    · subst hb
      refine returns_ite.mpr (Or.inl ⟨rfl, returns_pure.mpr ⟨?_, ?_⟩⟩)
      · rw [List.idxOf_cons_self]
        exact BitVec.add_zero p
      · rw [List.idxOf_cons_self, List.length_cons, Nat.min_eq_left (by omega), span_succ (by omega), span_zero,
          BitVec.add_zero,
          Set.union_insert, Set.union_empty]
    · refine returns_ite.mpr (Or.inr ⟨hb, ?_⟩)
      have hnext : (p + 1#32).toNat = p.toNat + 1 := by
        rw [BitVec.toNat_add]
        exact Nat.mod_eq_of_lt (show p.toNat + 1 < 4294967296 by omega)
      have hrest := @ih { w with reads := insert p w.reads } (p + 1#32) fuel hx.2 (by omega) (by omega)
      have hindex : (b :: x).idxOf c = x.idxOf c + 1 := List.idxOf_cons_ne _ hb
      have hread : min (x.idxOf c + 1 + 1) (x.length + 1) = min (x.idxOf c + 1) x.length + 1 := Nat.succ_min_succ _ _
      rw [add_succ_length] at hrest
      rw [hindex, List.length_cons, hread, span_cons (by omega), Set.union_insert, ← Set.insert_union]
      exact hrest

theorem memfind_ends {c : CInt} (hx : Holds mem s x) (hn : x.length = n.toNat)
    (hroom : s.toNat + n.toNat < 4294967296) :
    Ends (fun fuel => memfind fuel s c n) (watch mem) (s + BitVec.ofNat 32 (x.idxOf (c.setWidth 8)))
      ⟨mem, span s (min (x.idxOf (c.setWidth 8) + 1) x.length), ∅⟩ := by
  refine ⟨x.length + 1, fun fuel hf => ?_⟩
  have hends : s.toNat + x.length = (s + n).toNat := by
    rw [hn, BitVec.toNat_add]
    exact (Nat.mod_eq_of_lt hroom).symm
  have hr := @memfindFrom_returns (watch mem) s (c.setWidth 8) x fuel (s + n) hx hends hf
  rw [watch, Set.empty_union] at hr
  exact hr

theorem memfind_wraps {c : CInt} (hroom : 4294967296 ≤ s.toNat + n.toNat) :
    Ends (fun fuel => memfind fuel s c n) (watch mem) s (watch mem) := by
  refine ⟨1, fun fuel hf => ?_⟩
  obtain ⟨fuel, rfl⟩ : ∃ k, fuel = k + 1 := ⟨fuel - 1, by omega⟩
  have hs := s.isLt
  have hn := n.isLt
  have hstop : ¬ s < s + n := by
    rw [BitVec.lt_def, BitVec.toNat_add]
    omega
  exact returns_ite.mpr (Or.inr ⟨hstop, returns_pure.mpr ⟨rfl, rfl⟩⟩)

theorem memfind_finds_iff {c : CInt} (hx : Holds mem s x) (hn : x.length = n.toNat) :
    (∃ w, Ends (fun fuel => memfind fuel s c n) (watch mem) (s + BitVec.ofNat 32 (x.idxOf (c.setWidth 8))) w ∧
    w.mem = mem ∧
      w.reads ⊆ span s x.length) ↔ s.toNat + n.toNat < 4294967296 ∨ x.idxOf (c.setWidth 8) = 0 := by
  have hshort : x.idxOf (c.setWidth 8) ≤ x.length := List.idxOf_le_length
  have hlt := n.isLt
  constructor
  · rintro ⟨w, hfound, _⟩
    by_contra hbad
    rw [not_or, Nat.not_lt] at hbad
    have hsame := (EndsAs.unique hfound (memfind_wraps hbad.1)).1
    have hzero : BitVec.ofNat 32 (x.idxOf (c.setWidth 8)) = 0#32 := by
      have hsub := congrArg (· - s) hsame
      rwa [add_sub_cancel, BitVec.sub_self] at hsub
    have hmod := congrArg BitVec.toNat hzero
    rw [BitVec.toNat_ofNat, Nat.mod_eq_of_lt (by omega)] at hmod
    exact hbad.2 hmod
  · intro h
    rcases Nat.lt_or_ge (s.toNat + n.toNat) 4294967296 with hroom | hroom
    · exact ⟨_, memfind_ends hx hn hroom, rfl, span_mono (Nat.min_le_right _ _)⟩
    · have hzero : x.idxOf (c.setWidth 8) = 0 := h.resolve_left (by omega)
      refine ⟨watch mem, ?_, rfl, Set.empty_subset _⟩
      rw [hzero, BitVec.add_zero]
      exact memfind_wraps hroom

theorem memfind_finds_short : ∃ w, Ends (fun fuel => memfind fuel 1#32 0x42#32 3#32) (watch shortString) 2#32 w := by
  have hbytes : Holds shortString 1#32 [0x41#8, 0x42#8, 0#8] := shortString_holds.holds
  have hindex : [0x41#8, 0x42#8, 0#8].idxOf ((0x42#32 : CInt).setWidth 8) = 1 := by decide
  obtain ⟨w, hends, _⟩ := (@memfind_finds_iff shortString 1#32 3#32 _ 0x42#32 hbytes rfl).mpr (Or.inl (by decide))
  rw [hindex] at hends
  exact ⟨w, hends⟩

theorem strchr_memfind (hx : IsCString mem s x) (hroom : s.toNat + x.length < 4294967296) :
    ∃ p q w w', Ends (fun fuel => strchr fuel s c) (watch mem) p w ∧ w.mem = mem ∧ w.reads = span s (x.idxOf c + 1) ∧
      Ends (fun fuel => memfind fuel s (c.signExtend 32) (BitVec.ofNat 32 x.length)) (watch mem) q w' ∧
        w'.mem = mem ∧
      w'.reads ⊆ span s x.length ∧ q = s + BitVec.ofNat 32 (x.idxOf c) ∧
      p = if q = s + BitVec.ofNat 32 x.length then 0#32 else q := by
  have hlen : x.length = (BitVec.ofNat 32 x.length).toNat := (Nat.mod_eq_of_lt (by omega)).symm
  have hchar : (c.signExtend 32 : CInt).setWidth 8 = c := by
    apply BitVec.eq_of_getLsbD_eq
    intro i hi
    rw [BitVec.getLsbD_setWidth, BitVec.getLsbD_signExtend]
    have hwide : i < 32 := by omega
    simp [hi, hwide]
  have hfind := @memfind_ends mem s (BitVec.ofNat 32 x.length) x (c.signExtend 32)
    (holds_append.mp hx.holds).1 hlen (by omega)
  rw [hchar] at hfind
  refine ⟨_, _, _, _, strchr_ends hx, rfl, rfl, hfind, rfl, span_mono (Nat.min_le_right _ _), rfl, ?_⟩
  by_cases hc : c ∈ x
  · have hin : x.idxOf c < x.length := List.idxOf_lt_length_iff.mpr hc
    have hne : s + BitVec.ofNat 32 (x.idxOf c) ≠ s + BitVec.ofNat 32 x.length := by
      intro he
      have hsub := congrArg (fun p => (p - s).toNat) he
      simp only [toNat_offset (show x.idxOf c < 4294967296 by omega),
        toNat_offset (show x.length < 4294967296 by omega)] at hsub
      omega
    rw [if_pos hc, if_neg hne]
  · rw [if_neg hc, List.idxOf_eq_length hc, if_pos rfl]

theorem strchr_memfind_short : ∃ p w, Ends (fun fuel => strchr fuel 1#32 0x42#8) (watch shortString) p w ∧
    p = 2#32 := by
  obtain ⟨p, q, w, _, hends, _, _, _, _, _, hq, hp⟩ := @strchr_memfind shortString 1#32 0x42#8 _
    shortString_holds (by decide)
  refine ⟨p, w, hends, ?_⟩
  rw [hp, hq]
  decide

end Cezos.Strings
