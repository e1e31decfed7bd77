import Cezos.Loader.Kload

namespace Cezos

open Lib

variable {s s₁ s' : Loader} {dst pa offset count endPa : Word} {n m fuel : ℕ}

/-- Only the 512 bytes from `dst` on can have changed. -/
structure Loader.Within (s : Loader) (dst : Word) (n : ℕ) (s' : Loader) : Prop where
  same : SameDisk s s'
  rest : ∀ q : Word, n ≤ (q - dst).toNat → s'.mem q.toNat = s.mem q.toNat

theorem diskOutb_some {port : CInt} {data : Byte} : ∃ d, Returns false (diskOutb port data) s () (s.setDrive d) :=
  ⟨_, returns_bind.mpr ⟨(), s, returns_check.mpr ⟨rfl, by simp⟩, returns_modify.mpr rfl⟩⟩

theorem readCommand_some : ∃ d, Returns false (readCommand offset) s () (s.setDrive d) := by
  obtain ⟨d₂, h₂⟩ := @diskOutb_some s 0x1F2#32 1#8
  obtain ⟨d₃, h₃⟩ := @diskOutb_some (s.setDrive d₂) 0x1F3#32 (offset.setWidth 8)
  obtain ⟨d₄, h₄⟩ := @diskOutb_some (s.setDrive d₃) 0x1F4#32 ((offset >>> 8).setWidth 8)
  obtain ⟨d₅, h₅⟩ := @diskOutb_some (s.setDrive d₄) 0x1F5#32 ((offset >>> 16).setWidth 8)
  obtain ⟨d₆, h₆⟩ := @diskOutb_some (s.setDrive d₅) 0x1F6#32 ((offset >>> 24 ||| 0xE0#32).setWidth 8)
  obtain ⟨d₇, h₇⟩ := @diskOutb_some (s.setDrive d₆) 0x1F7#32 0x20#8
  exact ⟨d₇, returns_bind.mpr ⟨(), _, h₂, returns_bind.mpr ⟨(), _, h₃, returns_bind.mpr ⟨(), _, h₄,
    returns_bind.mpr ⟨(), _, h₅, returns_bind.mpr ⟨(), _, h₆, h₇⟩⟩⟩⟩⟩⟩

theorem diskInsl_within : ∃ s', Returns false (diskInsl 0x1F0#32 dst 128) s () s' ∧ s.Within dst 512 s' := by
  have step : ∀ k s₁, 0 ≤ k → k < 0 + 4 * 128 → s.Within dst 512 s₁ → ∃ s₂, Returns false (do
      Prog.check (fun s => decide ((0x1F0#32).setWidth 16 = 0x1F0#16 ∧ s.HasByte))
      Prog.modify (fun s : Loader => s.takeByte (dst + BitVec.ofNat 32 k).toNat)) s₁ () s₂ ∧
        s.Within dst 512 s₂ := by
    intro k s₁ _ hk hwithin
    refine ⟨_, returns_bind.mpr ⟨(), s₁, returns_check.mpr ⟨rfl, by simp⟩, returns_modify.mpr rfl⟩,
      ⟨hwithin.same.disk, hwithin.same.sectors, hwithin.same.status⟩, fun q hq => ?_⟩
    have hne : q.toNat ≠ (dst + BitVec.ofNat 32 k).toNat := by
      intro he
      rw [BitVec.eq_of_toNat_eq he, BitVec.add_comm, BitVec.add_sub_cancel, BitVec.toNat_ofNat] at hq
      omega
    exact (Function.update_of_ne hne _ _).trans (hwithin.rest q hq)
  obtain ⟨s', hret, hwithin⟩ := forUp_returns step ⟨.refl, fun _ _ => rfl⟩
  exact ⟨s', hret, hwithin⟩

theorem readsect_within (hp : s.Patient) :
    ∃ s', EndsAs false (fun fuel => readsect fuel dst offset) s () s' ∧ s.Within dst 512 s' := by
  obtain ⟨t₁, hwait₁⟩ := waitdisk_ends hp
  obtain ⟨d, hcommand⟩ := @readCommand_some (s.readyAt t₁) offset
  have hpatient : ((s.readyAt t₁).setDrive d).Patient := hp
  obtain ⟨t₂, hwait₂⟩ := waitdisk_ends hpatient
  obtain ⟨s', hinsl, hwithin⟩ := @diskInsl_within (((s.readyAt t₁).setDrive d).readyAt t₂) dst
  exact ⟨s', hwait₁.loosen.bind (.step hcommand (hwait₂.loosen.bind (.of_returns hinsl))),
    ⟨hwithin.same.disk, hwithin.same.sectors, hwithin.same.status⟩, hwithin.rest⟩

theorem Loader.Within.next (h : s.Within pa 512 s₁) (h' : s₁.Within (pa + sectsize) (512 * m) s') :
    s.Within pa (512 * (m + 1)) s' := by
  refine ⟨h.same.trans h'.same, fun q hq => ?_⟩
  have hstep : q - (pa + sectsize) = q - pa - sectsize := by grind
  have hlater : 512 * m ≤ (q - (pa + sectsize)).toNat := by
    have hlt := (q - pa).isLt
    rw [hstep, BitVec.toNat_sub]
    change 512 * m ≤ (4294967296 - 512 + (q - pa).toNat) % 4294967296
    omega
  rw [h'.rest q hlater, h.rest q (by omega)]

def readSectors (fuel : ℕ) : ℕ → Word → Word → Load Unit
  | 0, _, _ => return ()
  | n + 1, pa, offset => do
    readsect fuel pa offset
    readSectors fuel n (pa + sectsize) (offset + 1#32)

theorem toNat_nextSector (h : pa.toNat + 512 < 4294967296) : (pa + sectsize).toNat = pa.toNat + 512 := by
  rw [BitVec.toNat_add]
  exact Nat.mod_eq_of_lt h

theorem readsegLoop_within (hp : s.Patient) (hin : ∀ j < m, pa.toNat + 512 * j < endPa.toNat)
    (hout : endPa.toNat ≤ pa.toNat + 512 * m) (htop : pa.toNat + 512 * m < 4294967296) :
    ∃ p s', LoopEndsAs false (fun fuel => readsegStep fuel endPa) (pa, offset) s p s' ∧
      EndsAs false (fun fuel => readSectors fuel m pa offset) s () s' ∧ s.Within pa (512 * m) s' := by
  induction m generalizing pa offset s with
  | zero =>
    have hstop : ¬ pa < endPa := by
      rw [BitVec.lt_def]
      omega
    refine ⟨(pa, offset), s, .stop ⟨0, fun fuel _ => ?_⟩, .of_returns (returns_pure.mpr ⟨rfl, rfl⟩), .refl,
      fun _ _ => rfl⟩
    exact returns_ite.mpr (Or.inr ⟨hstop, returns_pure.mpr ⟨rfl, rfl⟩⟩)
  | succ m ih =>
    have hgo : pa < endPa := by
      rw [BitVec.lt_def]
      exact hin 0 (Nat.succ_pos m)
    obtain ⟨s₁, hsect, hfirst⟩ := @readsect_within s pa offset hp
    have hpa := @toNat_nextSector pa
      (Nat.lt_of_le_of_lt (Nat.add_le_add_left (Nat.le_mul_of_pos_right 512 (Nat.succ_pos m)) _) htop)
    have hlater : ∀ j < m, (pa + sectsize).toNat + 512 * j < endPa.toNat := by
      intro j hj
      have hnext := hin (j + 1) (by omega)
      omega
    obtain ⟨p, s', hloop, hall, hrest⟩ := @ih s₁ (pa + sectsize) (offset + 1#32) (hfirst.same.patient hp) hlater
      (by omega) (by omega)
    refine ⟨p, s', .next ?_ hloop, hsect.bind hall, hfirst.next hrest⟩
    have hturn : EndsAs false (fun fuel => readsect fuel pa offset >>= fun _ =>
        (pure (some (pa + sectsize, offset + 1#32)) : Load (Option (Word × Word)))) s
        (some (pa + sectsize, offset + 1#32)) s₁ := hsect.bind (.of_returns (returns_pure.mpr ⟨rfl, rfl⟩))
    obtain ⟨N, hN⟩ := hturn
    exact ⟨N, fun fuel hle => returns_ite.mpr (Or.inl ⟨hgo, hN fuel hle⟩)⟩

theorem readsegLoop_endless {fuel turns : ℕ} {p : Word × Word} (hpa : pa.toNat % 512 = 0)
    (hend : 4294966784 < endPa.toNat) :
    ¬ Returns false (Prog.whileSome (readsegStep fuel endPa) turns (pa, offset)) s p s' := by
  refine not_returns_whileSome (I := fun p : Word × Word => p.1.toNat % 512 = 0) ?_ hpa
  rintro ⟨pa, offset⟩ s o s' hmod h
  have hlt := pa.isLt
  have hgo : pa < endPa := by
    rw [BitVec.lt_def]
    change pa.toNat % 512 = 0 at hmod
    omega
  rcases returns_ite.mp h with ⟨_, hread⟩ | ⟨hstop, _⟩
  · obtain ⟨_, s₁, _, hret⟩ := returns_bind.mp hread
    obtain ⟨rfl, rfl⟩ := returns_pure.mp hret
    refine ⟨_, rfl, ?_⟩
    change pa.toNat % 512 = 0 at hmod
    change (pa + sectsize).toNat % 512 = 0
    rw [BitVec.toNat_add]
    change (pa.toNat + 512) % 4294967296 % 512 = 0
    omega
  · exact absurd hgo hstop

def sectorDown (pa : Word) : Word := pa &&& ~~~(sectsize - 1#32)

/-- `readseg` as any header may ask for it: a bounded number of sectors, all of them in the request. -/
def ReadsWithin (s : Loader) (pa count offset : Word) : Prop :=
  ∃ n s', n ≤ count.toNat / 512 + 2 ∧ EndsAs false (fun fuel => readseg fuel pa count offset) s () s' ∧
    EndsAs false (fun fuel => readSectors fuel n (sectorDown pa) (offset / sectsize + 1#32)) s () s' ∧
    ∀ q : Word, 512 * sectorsOf pa.toNat count.toNat ≤ (q - sectorDown pa).toNat → s'.mem q.toNat = s.mem q.toNat

theorem toNat_pa_count : (pa + count).toNat = (pa.toNat + count.toNat) % 4294967296 := BitVec.toNat_add pa count

theorem readseg_within (hp : s.Patient) (h : pa + count ≤ 0xFFFFFE00#32) :
    ReadsWithin s pa count offset := by
  have hpa : (sectorDown pa).toNat = pa.toNat / 512 * 512 := toNat_sectorDown
  have hsum := @toNat_pa_count pa count
  have hlt := pa.isLt
  have hlt' := count.isLt
  rw [BitVec.le_def] at h
  change _ ≤ 4294966784 at h
  obtain ⟨m, hm⟩ : ∃ m, m = ((pa + count).toNat - pa.toNat / 512 * 512 + 511) / 512 := ⟨_, rfl⟩
  have hle : m ≤ sectorsOf pa.toNat count.toNat := by
    unfold sectorsOf
    omega
  obtain ⟨p, s', hloop, hall, hwithin⟩ := @readsegLoop_within s (sectorDown pa) (offset / sectsize + 1#32)
    (pa + count) m hp
    (by rw [hpa]; intro j hj; omega) (by rw [hpa]; omega) (by rw [hpa]; omega)
  refine ⟨m, s', ?_, hloop.ends.bind (.of_returns (returns_pure.mpr ⟨rfl, rfl⟩)), hall, fun q hq =>
    hwithin.rest q ?_⟩
  · unfold sectorsOf at hle
    omega
  · exact Nat.le_trans (Nat.mul_le_mul_left 512 hle) hq

theorem readseg_endless (hend : ¬ pa + count ≤ 0xFFFFFE00#32) : ¬ ReadsWithin s pa count offset := by
  rintro ⟨n, s', _, ⟨N, hN⟩, _⟩
  obtain ⟨p, s₁, hloop, _⟩ := returns_bind.mp (hN N (Nat.le_refl N))
  refine readsegLoop_endless ?_ (Nat.not_le.mp hend) hloop
  rw [toNat_sectorDown]
  exact Nat.mul_mod_left _ _

theorem readseg_within_iff (hp : s.Patient) : ReadsWithin s pa count offset ↔ pa + count ≤ 0xFFFFFE00#32 := by
  constructor
  · intro h
    by_contra hend
    exact readseg_endless hend h
  · exact readseg_within hp

theorem readseg_within_wrapped : ReadsWithin smallLoader 0x1234#32 0xFFFFFFF0#32 0#32 :=
  (readseg_within_iff smallLoader_patient).mpr (by decide)

theorem not_readseg_within : ¬ ∀ (s : Loader) (pa count offset : Word), s.Patient →
    ReadsWithin s pa count offset := by
  intro h
  exact readseg_endless (by decide) (h smallLoader 0xFFFFFF00#32 0x10#32 0#32 smallLoader_patient)

end Cezos
