import Cezos.Lib.Blit
import Cezos.Stdio.Format

namespace Cezos.Strings

open Lib

variable {st : Bool} {mem mem' : Bytes} {p dst src len r : Word} {c : Byte} {k n : ℕ}

def load (p : Word) : Prog Bytes Byte := fun mem =>
  match mem p with
  | some c => .ret c mem true
  | none => .fault mem

def store (p : Word) (c : Byte) : Prog Bytes Unit := fun mem =>
  match mem p with
  | some _ => .ret () (Function.update mem p (some c)) true
  | none => .fault mem

theorem returns_load : Returns st (load p) mem c mem' ↔ mem p = some c ∧ mem' = mem := by
  unfold load
  constructor
  · rintro ⟨clean, hx, _⟩
    cases hp : mem p with
    | none => simp [hp] at hx
    | some b =>
      simp only [hp, Outcome.ret.injEq] at hx
      exact ⟨by rw [hx.1], hx.2.1.symm⟩
  · rintro ⟨hp, rfl⟩
    refine ⟨true, ?_, fun _ => rfl⟩
    simp only [hp]

theorem returns_store {u : Unit} : Returns st (store p c) mem u mem' ↔
    (∃ b, mem p = some b) ∧ mem' = Function.update mem p (some c) := by
  unfold store
  constructor
  · rintro ⟨clean, hx, _⟩
    cases hp : mem p with
    | none => simp [hp] at hx
    | some b =>
      simp only [hp, Outcome.ret.injEq] at hx
      exact ⟨⟨b, rfl⟩, hx.2.1.symm⟩
  · rintro ⟨⟨b, hp⟩, rfl⟩
    refine ⟨true, ?_, fun _ => rfl⟩
    simp only [hp]

theorem isSome_update (h : (mem p).isSome) {q : Word} :
    (Function.update mem p (some c) q).isSome = (mem q).isSome := by
  by_cases hq : q = p
  · rw [hq, Function.update_self, h]
    rfl
  · rw [Function.update_of_ne hq]

def memcpy (dst src len : Word) : Prog Bytes Word := do
  Prog.forUp (fun i => do
    let c ← load (src + BitVec.ofNat 32 i)
    store (dst + BitVec.ofNat 32 i) c) 0 len.toNat
  return dst

def memmove (dst src len : Word) : Prog Bytes Word := memcpy dst src len

def flat (mem : Bytes) : ℕ → Option Byte := fun i => if i < 4294967296 then mem (BitVec.ofNat 32 i) else none

theorem flat_at {i : ℕ} (h : i < 4294967296) : flat mem i = mem (BitVec.ofNat 32 i) := if_pos h

theorem flat_update {v : Option Byte} : flat (Function.update mem p v) = Function.update (flat mem) p.toNat v := by
  funext i
  by_cases hi : i = p.toNat
  · subst hi
    rw [Function.update_self, flat_at p.isLt, BitVec.ofNat_toNat, BitVec.setWidth_eq, Function.update_self]
  · rw [Function.update_of_ne hi]
    unfold flat
    split
    · next hlt =>
      have hne : BitVec.ofNat 32 i ≠ p := by
        rintro rfl
        rw [BitVec.toNat_ofNat] at hi
        omega
      rw [Function.update_of_ne hne]
    · rfl

theorem flat_add (h : p.toNat + k < 4294967296) : flat mem (p.toNat + k) = mem (p + BitVec.ofNat 32 k) := by
  rw [flat_at h, BitVec.ofNat_add, BitVec.ofNat_toNat, BitVec.setWidth_eq]

theorem toNat_add (h : p.toNat + k < 4294967296) : (p + BitVec.ofNat 32 k).toNat = p.toNat + k := by
  rw [BitVec.toNat_add, BitVec.toNat_ofNat]
  omega

theorem flat_outside (hd : dst.toNat + n ≤ 4294967296)
    (h : ∀ i, i < dst.toNat ∨ dst.toNat + n ≤ i → flat mem' i = flat mem i)
    (hp : ∀ k < n, p ≠ dst + BitVec.ofNat 32 k) :
    mem' p = mem p := by
  have hout : p.toNat < dst.toNat ∨ dst.toNat + n ≤ p.toNat := by
    by_contra hin
    refine hp (p.toNat - dst.toNat) (by omega) (BitVec.eq_of_toNat_eq ?_)
    rw [toNat_add (by omega)]
    omega
  have hpp := h p.toNat hout
  rwa [flat_at p.isLt, flat_at p.isLt, BitVec.ofNat_toNat, BitVec.setWidth_eq] at hpp

theorem copied_returns (h : Returns st (load p >>= fun c => store r c) mem () mem') :
    mem' = Function.update mem r (mem p) := by
  obtain ⟨c, mem₁, hload, hstore⟩ := returns_bind.mp h
  obtain ⟨hp, rfl⟩ := returns_load.mp hload
  rw [(returns_store.mp hstore).2, hp]

theorem memcpy_forward (hd : dst.toNat + len.toNat ≤ 4294967296) (hs : src.toNat + len.toNat ≤ 4294967296)
    (h : Returns st (memcpy dst src len) mem r mem') :
    r = dst ∧ flat mem' = Blit.forward (flat mem) dst.toNat src.toNat len.toNat := by
  obtain ⟨_, mem₁, hloop, hret⟩ := returns_bind.mp h
  obtain ⟨rfl, rfl⟩ := returns_pure.mp hret
  have hall := forUp_invariant (I := fun k m => flat m = Blit.forward (flat mem) r.toNat src.toNat k)
    (fun k m m₁ _ hk hm hbody => by
      rw [copied_returns hbody, flat_update, toNat_add (by omega), Blit.forward, ← hm, flat_add (by omega)])
        hloop rfl
  rw [Nat.zero_add] at hall
  exact ⟨rfl, hall⟩

def Mapped (mem : Bytes) (p : Word) (n : ℕ) : Prop := ∀ k < n, (mem (p + BitVec.ofNat 32 k)).isSome

instance : Decidable (Mapped mem p n) := inferInstanceAs (Decidable (∀ k < n, (mem (p + BitVec.ofNat 32 k)).isSome))

theorem stores_return {body : ℕ → Prog Bytes Unit} (hm : Mapped mem dst n)
    (hbody : ∀ k m, k < n → (∀ p, (m p).isSome = (mem p).isSome) → (m (dst + BitVec.ofNat 32 k)).isSome →
      ∃ c, Returns true (body k) m () (Function.update m (dst + BitVec.ofNat 32 k) (some c))) :
    ∃ mem', Returns true (Prog.forUp body 0 n) mem () mem' := by
  have hstep : ∀ k m, 0 ≤ k → k < 0 + n → (∀ p, (m p).isSome = (mem p).isSome) →
      ∃ m₁, Returns true (body k) m () m₁ ∧ ∀ p, (m₁ p).isSome = (mem p).isSome := by
    intro k m _ hk hsome
    have hdk := hm k (by omega)
    rw [← hsome] at hdk
    obtain ⟨c, hturn⟩ := hbody k m (by omega) hsome hdk
    refine ⟨_, hturn, fun p => ?_⟩
    rw [isSome_update hdk, hsome]
  obtain ⟨mem', hloop, _⟩ := forUp_returns hstep (fun _ => rfl)
  exact ⟨mem', hloop⟩

theorem memcpy_returns (hd : Mapped mem dst len.toNat) (hs : Mapped mem src len.toNat) :
    ∃ mem', Returns true (memcpy dst src len) mem dst mem' := by
  have hturn : ∀ k m, k < len.toNat → (∀ p, (m p).isSome = (mem p).isSome) → (m (dst + BitVec.ofNat 32 k)).isSome →
      ∃ c, Returns true (load (src + BitVec.ofNat 32 k) >>= fun c => store (dst + BitVec.ofNat 32 k) c) m ()
        (Function.update m (dst + BitVec.ofNat 32 k) (some c)) := by
    intro k m hk hsome hdk
    have hsk := hs k hk
    rw [← hsome] at hsk
    obtain ⟨c, hc⟩ := Option.isSome_iff_exists.mp hsk
    exact ⟨c, returns_bind.mpr ⟨c, m, returns_load.mpr ⟨hc, rfl⟩,
      returns_store.mpr ⟨Option.isSome_iff_exists.mp hdk, rfl⟩⟩⟩
  obtain ⟨mem', hloop⟩ := stores_return hd hturn
  exact ⟨mem', returns_bind.mpr ⟨(), mem', hloop, returns_pure.mpr ⟨rfl, rfl⟩⟩⟩

def Moved (mem mem' : Bytes) (dst src : Word) (n : ℕ) : Prop :=
  (∀ k < n, mem' (dst + BitVec.ofNat 32 k) = mem (src + BitVec.ofNat 32 k)) ∧
    ∀ p, (∀ k < n, p ≠ dst + BitVec.ofNat 32 k) → mem' p = mem p

/-- A byte of `dst` that is a byte of `src` too has the value already that it is to get. -/
def Settled (mem : Bytes) (dst src : Word) (n : ℕ) : Prop :=
  src < dst → ∀ k, dst.toNat + k < src.toNat + n → mem (dst + BitVec.ofNat 32 k) = mem (src + BitVec.ofNat 32 k)

theorem memmove_moves_iff (hd : dst.toNat + len.toNat ≤ 4294967296) (hs : src.toNat + len.toNat ≤ 4294967296) :
    (Mapped mem dst len.toNat → Mapped mem src len.toNat → ∃ mem', Returns true (memmove dst src len) mem dst mem') ∧
    ∀ r mem', Returns false (memmove dst src len) mem r mem' →
      (Moved mem mem' dst src len.toNat ↔ Settled mem dst src len.toNat) := by
  refine ⟨memcpy_returns, fun r mem' hr => ?_⟩
  obtain ⟨_, hflat⟩ := memcpy_forward hd hs hr
  have hget : ∀ k < len.toNat, mem' (dst + BitVec.ofNat 32 k) =
      Blit.forward (flat mem) dst.toNat src.toNat len.toNat (dst.toNat + k) := fun k hk => by
    rw [← hflat, flat_add (by omega)]
  have hrest : ∀ p, (∀ k < len.toNat, p ≠ dst + BitVec.ofNat 32 k) → mem' p = mem p :=
    fun p => flat_outside hd (fun i hi => by rw [hflat, Blit.forward_outside hi])
  have hmoves := @Blit.forward_moves_iff _ (flat mem) dst.toNat src.toNat len.toNat
  constructor
  · rintro ⟨hmoved, _⟩ hlt k hk
    have hbelow : src.toNat < dst.toNat := hlt
    have hvalue := hmoves.mp (fun j hj => by rw [← hget j hj, hmoved j hj, flat_add (by omega)]) hlt k hk
    rwa [flat_add (by omega), flat_add (by omega)] at hvalue
  · intro hsettled
    refine ⟨fun k hk => ?_, hrest⟩
    rw [hget k hk, hmoves.mpr (fun hlt j hj => ?_) k hk, flat_add (by omega)]
    rw [flat_add (by omega), flat_add (by omega)]
    exact hsettled hlt j hj

def threeBytes : Bytes := fun p => if p < 3#32 then some (p.setWidth 8) else none

theorem memmove_moves_three : ∃ mem', Returns true (memmove 0#32 1#32 2#32) threeBytes 0#32 mem' ∧
    Moved threeBytes mem' 0#32 1#32 2 := by
  have hdst : Mapped threeBytes 0#32 2 := by decide
  have hsrc : Mapped threeBytes 1#32 2 := by decide
  obtain ⟨hreturns, hmoves⟩ := @memmove_moves_iff threeBytes 0#32 1#32 2#32 (by decide) (by decide)
  obtain ⟨mem', hr⟩ := hreturns hdst hsrc
  exact ⟨mem', hr, (hmoves 0#32 mem' hr.loosen).mpr (fun hlt => absurd hlt (by decide))⟩

theorem not_memmove_moves : ¬ ∀ (mem mem' : Bytes) (dst src len r : Word), dst.toNat + len.toNat ≤ 4294967296 →
    src.toNat + len.toNat ≤ 4294967296 → Returns false (memmove dst src len) mem r mem' →
      Moved mem mem' dst src len.toNat := by
  intro h
  have hrun : Returns false (memmove 1#32 0#32 2#32) threeBytes 1#32 _ := .of_eval (by decide +kernel)
  have hmoved := (h _ _ 1#32 0#32 2#32 _ (by decide) (by decide) hrun).1 1 (by decide)
  exact absurd hmoved (by decide +kernel)

end Cezos.Strings
