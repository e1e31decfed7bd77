import Cezos.Lib.Blit
import Cezos.Lib.Ends
import Cezos.Stdio.Printfmt

namespace Cezos

open Lib

structure Drive where
  count : Byte
  lba0 : Byte
  lba1 : Byte
  lba2 : Byte
  device : Byte
  start : ℕ
  size : ℕ
  taken : ℕ
  /-- it was seen ready since that command -/
  ready : Bool

structure Loader where
  /-- physical memory -/
  mem : ℕ → Byte
  /-- the bytes of the disk, of `sectors` sectors -/
  disk : ℕ → Byte
  sectors : ℕ
  /-- the status register at each moment -/
  status : ℕ → Byte
  clock : ℕ
  drive : Drive

abbrev Load := Prog Loader

namespace Drive

def lba (d : Drive) : BitVec 28 := d.device.setWidth 4 ++ d.lba2 ++ d.lba1 ++ d.lba0

def out (d : Drive) (port : BitVec 16) (data : Byte) : Drive :=
  if port = 0x1F2#16 then { d with count := data }
  else if port = 0x1F3#16 then { d with lba0 := data }
  else if port = 0x1F4#16 then { d with lba1 := data }
  else if port = 0x1F5#16 then { d with lba2 := data }
  else if port = 0x1F6#16 then { d with device := data }
  else if port = 0x1F7#16 ∧ data = 0x20#8 then
    { d with start := d.lba.toNat, size := 512 * d.count.toNat, taken := 0, ready := false }
  else d

end Drive

namespace Loader

def setDrive (s : Loader) (d : Drive) : Loader := { s with drive := d }

def takeByte (s : Loader) (a : ℕ) : Loader :=
  { s with
    mem := Function.update s.mem a (s.disk (512 * s.drive.start + s.drive.taken))
    drive := { s.drive with taken := s.drive.taken + 1 } }

def HasByte (s : Loader) : Prop :=
  s.drive.ready = true ∧ s.drive.taken < s.drive.size ∧ 512 * s.drive.start + s.drive.taken < 512 * s.sectors ∧
    s.drive.device &&& 0xF0#8 = 0xE0#8

instance (s : Loader) : Decidable s.HasByte := inferInstanceAs (Decidable (s.drive.ready = true ∧
  s.drive.taken < s.drive.size ∧ 512 * s.drive.start + s.drive.taken < 512 * s.sectors ∧
    s.drive.device &&& 0xF0#8 = 0xE0#8))

end Loader

def isReady (status : Byte) : Bool := status &&& 0xC0#8 == 0x40#8

def diskInb (port : CInt) : Load Byte :=
  if port.setWidth 16 = 0x1F7#16 then do
    let data ← Prog.read (fun s => s.status s.clock)
    Prog.modify (fun s => { s with
      clock := s.clock + 1
      drive := { s.drive with ready := s.drive.ready || isReady data } })
    return data
  else return 0xFF#8

/-- The registers may be written while the drive is ready. -/
def diskOutb (port : CInt) (data : Byte) : Load Unit := do
  Prog.check (·.drive.ready)
  Prog.modify (fun s => s.setDrive (s.drive.out (port.setWidth 16) data))

def diskInsl (port : CInt) (addr : Word) (cnt : ℕ) : Load Unit :=
  Prog.forUp (fun i => do
    Prog.check (fun s => decide (port.setWidth 16 = 0x1F0#16 ∧ s.HasByte))
    Prog.modify (fun s => s.takeByte (addr + BitVec.ofNat 32 i).toNat)) 0 (4 * cnt)

def sectsize : Word := 512#32

def waitdiskStep : Load (Option Unit) := do
  let status ← diskInb 0x1F7#32
  if status &&& 0xC0#8 ≠ 0x40#8 then return some ()
  else return none

def readCommand (offset : Word) : Load Unit := do
  diskOutb 0x1F2#32 1#8
  diskOutb 0x1F3#32 (offset.setWidth 8)
  diskOutb 0x1F4#32 ((offset >>> 8).setWidth 8)
  diskOutb 0x1F5#32 ((offset >>> 16).setWidth 8)
  diskOutb 0x1F6#32 ((offset >>> 24 ||| 0xE0#32).setWidth 8)
  diskOutb 0x1F7#32 0x20#8

section Code

variable (fuel : ℕ)

def waitdisk : Load Unit := Prog.whileSome (fun _ => waitdiskStep) fuel ()

def readsect (dst offset : Word) : Load Unit := do
  waitdisk fuel
  readCommand offset
  waitdisk fuel
  diskInsl 0x1F0#32 dst (sectsize / 4#32).toNat

def readsegStep (endPa : Word) (p : Word × Word) : Load (Option (Word × Word)) :=
  if p.1 < endPa then do
    readsect fuel p.1 p.2
    return some (p.1 + sectsize, p.2 + 1#32)
  else return none

def readseg (pa count offset : Word) : Load Unit := do
  let endPa := pa + count
  let pa := pa &&& ~~~(sectsize - 1#32)
  let offset := offset / sectsize + 1#32
  let _ ← Prog.whileSome (readsegStep fuel endPa) fuel (pa, offset)
  return ()

end Code

variable {s s' : Loader} {dst offset pa count : Word} {n m : ℕ}

namespace Loader

def Patient (s : Loader) : Prop := ∀ t, ∃ n, isReady (s.status (t + n)) = true

structure SameDisk (s s' : Loader) : Prop where
  disk : s'.disk = s.disk
  sectors : s'.sectors = s.sectors
  status : s'.status = s.status

theorem SameDisk.refl : SameDisk s s := ⟨rfl, rfl, rfl⟩

theorem SameDisk.trans {s₁ : Loader} (h₁ : SameDisk s s₁) (h₂ : SameDisk s₁ s') : SameDisk s s' :=
  ⟨h₂.disk.trans h₁.disk, h₂.sectors.trans h₁.sectors, h₂.status.trans h₁.status⟩

theorem SameDisk.patient (h : SameDisk s s') (hp : s.Patient) : s'.Patient := by
  unfold Patient
  rwa [h.status]

def readyAt (s : Loader) (t : ℕ) : Loader := { s with clock := t, drive := { s.drive with ready := true } }

end Loader

theorem waitdiskStep_returns :
    Returns true waitdiskStep s (if isReady (s.status s.clock) = true then none else some ())
    { s with clock := s.clock + 1, drive := { s.drive with ready := s.drive.ready || isReady (s.status s.clock) } } := by
  have hread : Returns true (diskInb 0x1F7#32) s (s.status s.clock)
      { s with clock := s.clock + 1, drive := { s.drive with ready := s.drive.ready || isReady (s.status s.clock) } } := by
    unfold diskInb
    rw [if_pos (by decide)]
    refine returns_bind.mpr ⟨_, s, returns_read.mpr ⟨rfl, rfl⟩, returns_bind.mpr ⟨(), _, returns_modify.mpr rfl, ?_⟩⟩
    exact returns_pure.mpr ⟨rfl, rfl⟩
  refine returns_bind.mpr ⟨_, _, hread, returns_ite.mpr ?_⟩
  by_cases hr : s.status s.clock &&& 0xC0#8 = 0x40#8
  · exact Or.inr ⟨not_not.mpr hr, returns_pure.mpr ⟨if_pos (beq_iff_eq.mpr hr), rfl⟩⟩
  · exact Or.inl ⟨hr, returns_pure.mpr ⟨if_neg (mt beq_iff_eq.mp hr), rfl⟩⟩

theorem waitdiskLoop_ends (hn : isReady (s.status (s.clock + n)) = true) :
    ∃ t, LoopEnds (fun _ _ => waitdiskStep) () s () (s.readyAt t) := by
  have hturn := @waitdiskStep_returns s
  induction n generalizing s with
  | zero =>
    rw [Nat.add_zero] at hn
    rw [if_pos hn, hn, Bool.or_true] at hturn
    exact ⟨s.clock + 1, .stop (.of_returns hturn)⟩
  | succ n ih =>
    by_cases hr : isReady (s.status s.clock) = true
    · rw [if_pos hr, hr, Bool.or_true] at hturn
      exact ⟨s.clock + 1, .stop (.of_returns hturn)⟩
    · have hbusy : isReady (s.status s.clock) = false := Bool.eq_false_iff.mpr hr
      rw [if_neg hr, hbusy, Bool.or_false] at hturn
      have hlater : isReady (s.status (s.clock + 1 + n)) = true := by
        rw [← hn]
        congr 2
        omega
      obtain ⟨t, ht⟩ := @ih { s with clock := s.clock + 1 } hlater waitdiskStep_returns
      exact ⟨t, .next (.of_returns hturn) ht⟩

theorem waitdisk_ends (hp : s.Patient) : ∃ t, Ends waitdisk s () (s.readyAt t) := by
  obtain ⟨n, hn⟩ := hp s.clock
  obtain ⟨t, ht⟩ := waitdiskLoop_ends hn
  exact ⟨t, ht.ends⟩

theorem Drive.out_ready {d : Drive} {port : BitVec 16} (data : Byte) (hp : port ≠ 0x1F7#16) (hr : d.ready = true) :
    (d.out port data).ready = true := by
  unfold Drive.out
  split_ifs with h₂ h₃ h₄ h₅ h₆ h₇
  · exact hr
  · exact hr
  · exact hr
  · exact hr
  · exact hr
  · exact absurd h₇.1 hp
  · exact hr

theorem diskOutb_returns {d : Drive} {port : CInt} {data : Byte} (hr : d.ready = true) :
    Returns true (diskOutb port data) (s.setDrive d) () (s.setDrive (d.out (port.setWidth 16) data)) :=
  returns_bind.mpr ⟨(), s.setDrive d, returns_check.mpr ⟨rfl, fun _ => hr⟩, returns_modify.mpr rfl⟩

def Drive.asked (offset : Word) : Drive where
  count := 1#8
  lba0 := offset.setWidth 8
  lba1 := (offset >>> 8).setWidth 8
  lba2 := (offset >>> 16).setWidth 8
  device := (offset >>> 24 ||| 0xE0#32).setWidth 8
  start := offset.toNat
  size := 512
  taken := 0
  ready := false

theorem lba_split : ((offset >>> 24 ||| 0xE0#32).setWidth 8).setWidth 4 ++ ((offset >>> 16).setWidth 8 : Byte) ++
    ((offset >>> 8).setWidth 8 : Byte) ++ (offset.setWidth 8 : Byte) = offset.setWidth (4 + 8 + 8 + 8) := by
  have hmode : ∀ j < 4, (0xE0#32).getLsbD j = false := by decide
  apply BitVec.eq_of_getLsbD_eq
  intro i hi
  simp only [BitVec.getLsbD_append, BitVec.getLsbD_setWidth, BitVec.getLsbD_or, BitVec.getLsbD_ushiftRight]
  rw [decide_eq_true hi, Bool.true_and]
  split
  · next h₀ => rw [decide_eq_true h₀, Bool.true_and]
  · split
    · next h₁ => rw [decide_eq_true h₁, Bool.true_and, show 8 + (i - 8) = i by omega]
    · split
      · next h₂ => rw [decide_eq_true h₂, Bool.true_and, show 16 + (i - 8 - 8) = i by omega]
      · have hlast : i - 8 - 8 - 8 < 4 := by omega
        rw [hmode _ hlast, decide_eq_true hlast, decide_eq_true (by omega), Bool.true_and, Bool.true_and,
          Bool.or_false,
          show 24 + (i - 8 - 8 - 8) = i by omega]

theorem device_mode (ho : offset.toNat < 268435456) : ((offset >>> 24 ||| 0xE0#32).setWidth 8 : Byte) &&&
    0xF0#8 = 0xE0#8 := by
  have hall : ∀ k < 16, ((BitVec.ofNat 32 k ||| 0xE0#32).setWidth 8 : Byte) &&& 0xF0#8 = 0xE0#8 := by decide
  have hk : (offset >>> 24).toNat < 16 := by
    rw [BitVec.toNat_ushiftRight, Nat.shiftRight_eq_div_pow]
    omega
  have h := hall _ hk
  rwa [BitVec.ofNat_toNat, BitVec.setWidth_eq] at h

theorem readCommand_returns (hr : s.drive.ready = true) (ho : offset.toNat < 268435456) :
    Returns true (readCommand offset) s () (s.setDrive (.asked offset)) := by
  have hlba : (((offset >>> 24 ||| 0xE0#32).setWidth 8).setWidth 4 ++ ((offset >>> 16).setWidth 8 : Byte) ++
      ((offset >>> 8).setWidth 8 : Byte) ++ (offset.setWidth 8 : Byte)).toNat = offset.toNat := by
    rw [lba_split, BitVec.toNat_setWidth]
    exact Nat.mod_eq_of_lt ho
  have hfinal : ((((((s.drive.out 0x1F2#16 1#8).out 0x1F3#16 (offset.setWidth 8)).out 0x1F4#16
      ((offset >>> 8).setWidth 8)).out 0x1F5#16 ((offset >>> 16).setWidth 8)).out 0x1F6#16
      ((offset >>> 24 ||| 0xE0#32).setWidth 8)).out 0x1F7#16 0x20#8) = .asked offset := by
    simp only [Drive.out, Drive.asked, Drive.lba, BitVec.reduceEq, and_self, if_true, if_false]
    rw [hlba]
    rfl
  have h₂ := Drive.out_ready 1#8 (by decide : 0x1F2#16 ≠ 0x1F7#16) hr
  have h₃ := Drive.out_ready (offset.setWidth 8) (by decide : 0x1F3#16 ≠ 0x1F7#16) h₂
  have h₄ := Drive.out_ready ((offset >>> 8).setWidth 8) (by decide : 0x1F4#16 ≠ 0x1F7#16) h₃
  have h₅ := Drive.out_ready ((offset >>> 16).setWidth 8) (by decide : 0x1F5#16 ≠ 0x1F7#16) h₄
  have h₆ := Drive.out_ready ((offset >>> 24 ||| 0xE0#32).setWidth 8) (by decide : 0x1F6#16 ≠ 0x1F7#16) h₅
  rw [← hfinal]
  exact returns_bind.mpr ⟨(), _, @diskOutb_returns s s.drive 0x1F2#32 _ hr,
    returns_bind.mpr ⟨(), _, diskOutb_returns h₂,
    returns_bind.mpr ⟨(), _, diskOutb_returns h₃, returns_bind.mpr ⟨(), _, diskOutb_returns h₄,
      returns_bind.mpr ⟨(), _, diskOutb_returns h₅, diskOutb_returns h₆⟩⟩⟩⟩⟩

theorem takeByte_returns {a : Word} {i : ℕ} (h : s.HasByte) : Returns true (do
      Prog.check (fun s => decide ((0x1F0#32).setWidth 16 = 0x1F0#16 ∧ s.HasByte))
      Prog.modify (fun s : Loader => s.takeByte (a + BitVec.ofNat 32 i).toNat)) s ()
        (s.takeByte (a + BitVec.ofNat 32 i).toNat) :=
  returns_bind.mpr ⟨(), s, returns_check.mpr ⟨rfl, fun _ => decide_eq_true ⟨by decide, h⟩⟩, returns_modify.mpr rfl⟩

def Loader.tookBytes (s : Loader) (dst n : ℕ) : Loader :=
  { s with
    mem := blit s.mem dst n (fun i => s.disk (512 * s.drive.start + i))
    drive := { s.drive with taken := n } }

theorem diskInsl_returns (hr : s.drive.ready = true) (hsize : s.drive.size = 512) (htaken : s.drive.taken = 0)
    (hstart : s.drive.start < s.sectors) (hdev : s.drive.device &&& 0xF0#8 = 0xE0#8)
    (hdst : dst.toNat + 512 ≤ 4294967296) :
    Returns true (diskInsl 0x1F0#32 dst 128) s () (s.tookBytes dst.toNat 512) := by
  have step : ∀ k s₁, 0 ≤ k → k < 0 + 4 * 128 → s₁ = s.tookBytes dst.toNat k → ∃ s₂, Returns true (do
      Prog.check (fun s => decide ((0x1F0#32).setWidth 16 = 0x1F0#16 ∧ s.HasByte))
      Prog.modify (fun s : Loader => s.takeByte (dst + BitVec.ofNat 32 k).toNat)) s₁ () s₂ ∧
      s₂ = s.tookBytes dst.toNat (k + 1) := by
    rintro k s₁ _ hk rfl
    have hhas : (s.tookBytes dst.toNat k).HasByte := by
      refine ⟨hr, ?_, ?_, hdev⟩
      · change k < s.drive.size
        omega
      · change 512 * s.drive.start + k < 512 * s.sectors
        omega
    have hdstk : (dst + BitVec.ofNat 32 k).toNat = dst.toNat + k := by
      rw [BitVec.toNat_add, BitVec.toNat_ofNat, Nat.mod_eq_of_lt (by omega : k < 4294967296)]
      exact Nat.mod_eq_of_lt (by omega)
    refine ⟨_, takeByte_returns hhas, ?_⟩
    rw [hdstk, Loader.takeByte, Loader.tookBytes, Loader.tookBytes, Blit.succ]
  have start : s = s.tookBytes dst.toNat 0 := by
    rw [Loader.tookBytes, Blit.zero, ← htaken]
  obtain ⟨s', hret, hs'⟩ := forUp_returns step start
  rw [hs', Nat.zero_add] at hret
  exact hret

theorem readsect_ends (hp : s.Patient) (ho : offset.toNat < 268435456) (hsec : offset.toNat < s.sectors)
    (hdst : dst.toNat + 512 ≤ 4294967296) : ∃ s', Ends (fun fuel => readsect fuel dst offset) s () s' ∧
    s.SameDisk s' ∧
      s'.mem = blit s.mem dst.toNat 512 (fun i => s.disk (512 * offset.toNat + i)) := by
  obtain ⟨t₁, hwait₁⟩ := waitdisk_ends hp
  let asked : Loader := (s.readyAt t₁).setDrive (.asked offset)
  have hcommand := @readCommand_returns (s.readyAt t₁) offset rfl ho
  have hpatient : asked.Patient := hp
  obtain ⟨t₂, hwait₂⟩ := waitdisk_ends hpatient
  have hinsl := @diskInsl_returns (asked.readyAt t₂) dst rfl rfl rfl hsec (device_mode ho) hdst
  exact ⟨_, hwait₁.bind (.step hcommand (hwait₂.bind (.of_returns hinsl))), ⟨rfl, rfl, rfl⟩, rfl⟩

theorem sector_index {i : ℕ} (h : 512 ≤ i) : 512 * (n + 1) + (i - 512) = 512 * n + i := by omega

theorem readsegLoop_ends {endPa : Word} (hp : s.Patient) (hin : ∀ j < m, pa.toNat + 512 * j < endPa.toNat)
    (hout : endPa.toNat ≤ pa.toNat + 512 * m) (htop : pa.toNat + 512 * m < 4294967296)
    (hsec : offset.toNat + m ≤ s.sectors)
    (hlba : offset.toNat + m < 268435456) :
    ∃ p s', LoopEnds (fun fuel => readsegStep fuel endPa) (pa, offset) s p s' ∧
      s.SameDisk s' ∧ s'.mem = blit s.mem pa.toNat (512 * m) (fun i => s.disk (512 * offset.toNat + i)) := by
  induction m generalizing pa offset s with
  | zero =>
    have hstop : ¬ pa < endPa := by
      rw [BitVec.lt_def]
      omega
    refine ⟨(pa, offset), s, .stop ⟨0, fun fuel _ => ?_⟩, .refl, ?_⟩
    · exact returns_ite.mpr (Or.inr ⟨hstop, returns_pure.mpr ⟨rfl, rfl⟩⟩)
    · rw [Nat.mul_zero, Blit.zero]
  | succ m ih =>
    have hgo : pa < endPa := by
      rw [BitVec.lt_def]
      exact hin 0 (Nat.succ_pos m)
    obtain ⟨s₁, hsect, hsame, hmem⟩ := @readsect_ends s pa offset hp (by omega) (by omega) (by omega)
    have h512 : sectsize.toNat = 512 := rfl
    have hpa : (pa + sectsize).toNat = pa.toNat + 512 := by
      rw [BitVec.toNat_add, h512]
      exact Nat.mod_eq_of_lt
        (Nat.lt_of_le_of_lt (Nat.add_le_add_left (Nat.le_mul_of_pos_right 512 (Nat.succ_pos m)) _) htop)
    have hoffset : (offset + 1#32).toNat = offset.toNat + 1 := by
      rw [BitVec.toNat_add]
      exact Nat.mod_eq_of_lt (by change offset.toNat + 1 < 4294967296; omega)
    obtain ⟨p, s', hloop, hsame', hmem'⟩ := @ih s₁ (offset + 1#32) (pa + sectsize) (hsame.patient hp)
      (fun j hj => by have := hin (j + 1) (by omega); omega) (by omega) (by omega)
      (by rw [hsame.sectors]; omega) (by omega)
    refine ⟨p, s', .next ?_ hloop, hsame.trans hsame', ?_⟩
    · have hturn : Ends (fun fuel => readsect fuel pa offset >>= fun _ =>
          (pure (some (pa + sectsize, offset + 1#32)) : Load (Option (Word × Word)))) s
          (some (pa + sectsize, offset + 1#32)) s₁ := hsect.bind (.of_returns (returns_pure.mpr ⟨rfl, rfl⟩))
      obtain ⟨N, hN⟩ := hturn
      exact ⟨N, fun fuel hle => returns_ite.mpr (Or.inl ⟨hgo, hN fuel hle⟩)⟩
    · rw [hmem', hmem, hpa, hoffset, hsame.disk, Blit.append, show 512 + 512 * m = 512 * (m + 1) by omega]
      apply Blit.congr
      intro i _
      by_cases hi : i < 512
      · rw [if_pos hi]
      · rw [if_neg hi, sector_index (Nat.not_lt.mp hi)]

theorem toNat_sectorDown : (pa &&& ~~~(sectsize - 1#32)).toNat = pa.toNat / 512 * 512 := by
  have hmask : pa &&& ~~~(sectsize - 1#32) = pa >>> 9 <<< 9 := by
    have hbits : ∀ i < 32, (~~~(sectsize - 1#32)).getLsbD i = decide (9 ≤ i) := by decide
    apply BitVec.eq_of_getLsbD_eq
    intro i hi
    rw [BitVec.getLsbD_and, hbits i hi, BitVec.getLsbD_shiftLeft, BitVec.getLsbD_ushiftRight, decide_eq_true hi,
      Bool.true_and]
    by_cases h9 : 9 ≤ i
    · rw [decide_eq_true h9, decide_eq_false (by omega : ¬ i < 9), Nat.add_sub_cancel' h9, Bool.and_true]
      rfl
    · rw [decide_eq_false h9, decide_eq_true (by omega : i < 9), Bool.and_false]
      rfl
  rw [hmask, BitVec.toNat_shiftLeft, BitVec.toNat_ushiftRight, Nat.shiftRight_eq_div_pow, Nat.shiftLeft_eq]
  have hlt := pa.isLt
  exact Nat.mod_eq_of_lt (by omega)

def sectorsOf (pa count : ℕ) : ℕ := (pa % 512 + count + 511) / 512

theorem readseg_ends (hp : s.Patient) (htop : pa.toNat + count.toNat ≤ 4294966784)
    (hsec : offset.toNat / 512 + 1 + sectorsOf pa.toNat count.toNat ≤ s.sectors) :
    ∃ s', Ends (fun fuel => readseg fuel pa count offset) s () s' ∧ s.SameDisk s' ∧
      s'.mem = blit s.mem (pa.toNat / 512 * 512) (512 * sectorsOf pa.toNat count.toNat)
        (fun i => s.disk (512 * (offset.toNat / 512 + 1) + i)) := by
  have hend : (pa + count).toNat = pa.toNat + count.toNat := by
    rw [BitVec.toNat_add]
    exact Nat.mod_eq_of_lt (by omega)
  have hoffset : (offset / sectsize + 1#32).toNat = offset.toNat / 512 + 1 := by
    rw [BitVec.toNat_add, BitVec.toNat_udiv]
    exact Nat.mod_eq_of_lt (by change offset.toNat / 512 + 1 < 4294967296; omega)
  have hlt := offset.isLt
  have hpa := @toNat_sectorDown pa
  obtain ⟨p, s', hloop, hsame, hmem⟩ := @readsegLoop_ends s (offset / sectsize + 1#32)
    (pa &&& ~~~(sectsize - 1#32)) (sectorsOf pa.toNat count.toNat) (pa + count) hp
    (by rw [hpa, hend]; unfold sectorsOf; intro j hj; omega) (by rw [hpa, hend]; unfold sectorsOf; omega)
    (by rw [hpa]; unfold sectorsOf; omega) (by rw [hoffset]; exact hsec) (by rw [hoffset]; unfold sectorsOf; omega)
  rw [hpa, hoffset] at hmem
  exact ⟨s', hloop.ends.bind (.of_returns (returns_pure.mpr ⟨rfl, rfl⟩)), hsame, hmem⟩

end Cezos
