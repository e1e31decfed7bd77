import Cezos.Strings.Memory

namespace Cezos.Strings

open Lib

variable {st : Bool} {mem mem' : Bytes} {dst len r : Word} {c : CInt} {n k : ℕ}

def mask (c : CInt) (i : ℕ) : Byte := (c.sshiftRight (8 * i) &&& 0xFF#32).setWidth 8

/-- `mask[i%4]`, a remainder below zero lies in front of the array -/
def maskAt (c i : CInt) : Prog Bytes Byte :=
  if 0 ≤ (i.srem 4#32).toInt then return mask c (i.srem 4#32).toNat
  else Prog.fault

def memset (dst : Word) (c : CInt) (len : Word) : Prog Bytes Word :=
  if len = 0#32 then return dst
  else do
    Prog.forUp (fun i => do
      let m ← maskAt c (BitVec.ofNat 32 i)
      store (dst + BitVec.ofNat 32 i) m
      let _ ← signedAdd (BitVec.ofNat 32 i) 1#32) 0 len.toNat
    return dst

theorem mask_eq (hk : k < 4) : mask c k = c.extractLsb' (8 * k) 8 := by
  unfold mask
  rw [BitVec.setWidth_and]
  have hones : (0xFF#32).setWidth 8 = BitVec.allOnes 8 := by decide
  rw [hones, BitVec.and_allOnes]
  ext i hi
  rw [BitVec.getElem_setWidth, BitVec.getElem_extractLsb', BitVec.getLsbD_sshiftRight]
  have hin : 8 * k + i < 32 := by omega
  simp [hin]
  omega

theorem maskAt_eq (hk : k < 2147483648) : maskAt c (BitVec.ofNat 32 k) = return mask c (k % 4) := by
  have hrem : ((BitVec.ofNat 32 k : CInt).srem 4#32).toInt = (k % 4 : ℕ) := by
    rw [BitVec.toInt_srem, toInt_ofNat_small hk]
    exact (Int.ofNat_tmod k 4).symm
  have hnat : ((BitVec.ofNat 32 k : CInt).srem 4#32).toNat = k % 4 := by
    have hcond := BitVec.toInt_eq_toNat_cond ((BitVec.ofNat 32 k : CInt).srem 4#32)
    rw [hrem] at hcond
    have hlt := ((BitVec.ofNat 32 k : CInt).srem 4#32).isLt
    split at hcond <;> omega
  rw [maskAt, hrem, if_pos (by omega), hnat]

theorem toInt_index_succ (hk : k + 1 < 2147483648) :
    (BitVec.ofNat 32 k + 1#32 : CInt).toInt = (BitVec.ofNat 32 k : CInt).toInt + (1#32 : CInt).toInt := by
  rw [← BitVec.ofNat_add, toInt_ofNat_small hk, toInt_ofNat_small (by omega)]
  rfl

theorem fill_step (hk : k + 1 < 2147483648) : Returns st (maskAt c (BitVec.ofNat 32 k) >>= fun m =>
      store (dst + BitVec.ofNat 32 k) m >>= fun _ => signedAdd (BitVec.ofNat 32 k) 1#32 >>= fun _ =>
        pure ()) mem () mem' ↔
    (∃ b, mem (dst + BitVec.ofNat 32 k) = some b) ∧
      mem' = Function.update mem (dst + BitVec.ofNat 32 k) (some (mask c (k % 4))) := by
  rw [maskAt_eq (by omega)]
  constructor
  · intro h
    obtain ⟨_, _, hmask, hrest⟩ := returns_bind.mp h
    obtain ⟨rfl, rfl⟩ := returns_pure.mp hmask
    obtain ⟨_, _, hstore, hlast⟩ := returns_bind.mp hrest
    obtain ⟨hb, rfl⟩ := returns_store.mp hstore
    obtain ⟨_, _, hnext, hdone⟩ := returns_bind.mp hlast
    obtain ⟨⟨_, rfl⟩, _⟩ := returns_signed.mp hnext
    obtain ⟨_, rfl⟩ := returns_pure.mp hdone
    exact ⟨hb, rfl⟩
  · rintro ⟨hb, rfl⟩
    apply returns_bind.mpr ⟨_, _, returns_pure.mpr ⟨rfl, rfl⟩, _⟩
    apply returns_bind.mpr ⟨(), _, returns_store.mpr ⟨hb, rfl⟩, _⟩
    exact returns_bind.mpr ⟨_, _, returns_signed.mpr ⟨⟨rfl, rfl⟩, fun _ => toInt_index_succ hk⟩,
      returns_pure.mpr ⟨rfl, rfl⟩⟩

theorem memset_blit (hlen : len.toNat < 2147483648) (hd : dst.toNat + len.toNat ≤ 4294967296)
    (h : Returns st (memset dst c len) mem r mem') :
    r = dst ∧ flat mem' = blit (flat mem) dst.toNat len.toNat (fun i => some (mask c (i % 4))) := by
  unfold memset at h
  rcases returns_ite.mp h with ⟨hzero, hret⟩ | ⟨_, hrun⟩
  · obtain ⟨rfl, rfl⟩ := returns_pure.mp hret
    refine ⟨rfl, ?_⟩
    rw [hzero]
    exact Blit.zero.symm
  · obtain ⟨_, mem₁, hloop, hret⟩ := returns_bind.mp hrun
    obtain ⟨rfl, rfl⟩ := returns_pure.mp hret
    have hall := forUp_invariant
      (I := fun k m => flat m = blit (flat mem) r.toNat k (fun i => some (mask c (i % 4))))
      (fun k m m₁ _ hk hm hbody => by
        rw [((fill_step (by omega)).mp hbody).2, flat_update, toNat_add (by omega), hm, Blit.succ]) hloop
          Blit.zero.symm
    rw [Nat.zero_add] at hall
    exact ⟨rfl, hall⟩

theorem memset_returns (hlen : len.toNat < 2147483648) (hm : Mapped mem dst len.toNat) :
    ∃ mem', Returns true (memset dst c len) mem dst mem' := by
  by_cases hzero : len = 0#32
  · exact ⟨mem, returns_ite.mpr (Or.inl ⟨hzero, returns_pure.mpr ⟨rfl, rfl⟩⟩)⟩
  · obtain ⟨mem', hloop⟩ := stores_return hm
      (fun k m hk _ hdk => ⟨_, (fill_step (by omega)).mpr ⟨Option.isSome_iff_exists.mp hdk, rfl⟩⟩)
    exact ⟨mem', returns_ite.mpr (Or.inr ⟨hzero, returns_bind.mpr ⟨(), mem', hloop, returns_pure.mpr ⟨rfl, rfl⟩⟩⟩)⟩

def Filled (mem mem' : Bytes) (dst : Word) (b : Byte) (n : ℕ) : Prop :=
  (∀ k < n, mem' (dst + BitVec.ofNat 32 k) = some b) ∧ ∀ p, (∀ k < n, p ≠ dst + BitVec.ofNat 32 k) → mem' p = mem p

theorem memset_fills_iff (hlen : len.toNat < 2147483648) (hd : dst.toNat + len.toNat ≤ 4294967296) :
    (Mapped mem dst len.toNat → ∃ mem', Returns true (memset dst c len) mem dst mem') ∧
    ∀ r mem', Returns false (memset dst c len) mem r mem' →
      (Filled mem mem' dst (c.setWidth 8) len.toNat ↔ ∀ k < min len.toNat 4, c.extractLsb' (8 * k) 8 =
      c.setWidth 8) := by
  refine ⟨memset_returns hlen, fun r mem' hr => ?_⟩
  obtain ⟨_, hflat⟩ := memset_blit hlen hd hr
  have hget : ∀ k < len.toNat, mem' (dst + BitVec.ofNat 32 k) = some (mask c (k % 4)) := fun k hk => by
    rw [← @flat_add mem' dst k (by omega), hflat, Blit.inside hk]
  constructor
  · rintro ⟨hfilled, _⟩ k hk
    have hbyte := hfilled k (by omega)
    rw [hget k (by omega), Option.some.injEq, Nat.mod_eq_of_lt (by omega), mask_eq (by omega)] at hbyte
    exact hbyte
  · intro h
    refine ⟨fun k hk => ?_, fun p => flat_outside hd (fun i hi => by rw [hflat, Blit.outside hi])⟩
    have hmod : k % 4 ≤ k := Nat.mod_le k 4
    rw [hget k hk, mask_eq (by omega), h (k % 4) (by omega)]

theorem memset_fills_one : ∃ mem', Returns true (memset 0#32 0x01010101#32 3#32) threeBytes 0#32 mem' ∧
    Filled threeBytes mem' 0#32 1#8 3 := by
  have hdst : Mapped threeBytes 0#32 3 := by decide
  obtain ⟨hreturns, hfills⟩ := @memset_fills_iff threeBytes 0#32 3#32 0x01010101#32 (by decide) (by decide)
  obtain ⟨mem', hr⟩ := hreturns hdst
  exact ⟨mem', hr, (hfills 0#32 mem' hr.loosen).mpr (by decide)⟩

theorem not_memset_fills : ¬ ∀ (mem mem' : Bytes) (dst : Word) (c : CInt) (len r : Word), len.toNat < 2147483648 →
    dst.toNat + len.toNat ≤ 4294967296 → Returns false (memset dst c len) mem r mem' →
    Filled mem mem' dst (c.setWidth 8) len.toNat := by
  intro h
  have hrun : Returns false (memset 0#32 0x97#32 2#32) threeBytes 0#32 _ := .of_eval (by decide +kernel)
  have hfilled := (h _ _ 0#32 0x97#32 2#32 _ (by decide) (by decide) hrun).1 1 (by decide)
  exact absurd hfilled (by decide +kernel)

end Cezos.Strings
