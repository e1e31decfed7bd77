import Cezos.Loader.Disk

namespace Cezos

open Lib

def wordAt (mem : ℕ → Byte) (a : ℕ) : Word := mem (a + 3) ++ mem (a + 2) ++ mem (a + 1) ++ mem a

def halfAt (mem : ℕ → Byte) (a : ℕ) : BitVec 16 := mem (a + 1) ++ mem a

def elfMagic : Word := 0x464C457F#32

def eEntryOffset : ℕ := 24
def ePhoffOffset : ℕ := 28
def ePhnumOffset : ℕ := 44
def pOffsetOffset : ℕ := 4
def pPaOffset : ℕ := 12
def pMemszOffset : ℕ := 20
def proghdrSize : ℕ := 32

def kelfHeader : Word := 0x10000#32

def loadWord (p : Word) (field : ℕ) : Load Word :=
  Prog.read (fun s => wordAt s.mem (p + BitVec.ofNat 32 field).toNat)

def loadHalf (p : Word) (field : ℕ) : Load (BitVec 16) :=
  Prog.read (fun s => halfAt s.mem (p + BitVec.ofNat 32 field).toNat)

def loadError {α : Type} : Load α := Prog.spin

section Code

variable (fuel : ℕ)

def kloadStep (eph ph : Word) : Load (Option Word) :=
  if ph < eph then do
    let pa ← loadWord ph pPaOffset
    let memsz ← loadWord ph pMemszOffset
    let offset ← loadWord ph pOffsetOffset
    readseg fuel pa memsz offset
    return some (ph + BitVec.ofNat 32 proghdrSize)
  else return none

/-- It ends with the call of the entry point, whose address it answers. -/
def kload : Load Word := do
  readseg fuel kelfHeader (sectsize * 8#32) 0#32
  let magic ← loadWord kelfHeader 0
  if magic ≠ elfMagic then loadError
  else do
    let phoff ← loadWord kelfHeader ePhoffOffset
    let ph := kelfHeader + phoff
    let phnum ← loadHalf kelfHeader ePhnumOffset
    let eph := ph + BitVec.ofNat 32 proghdrSize * phnum.setWidth 32
    let _ ← Prog.whileSome (kloadStep fuel eph) fuel ph
    loadWord kelfHeader eEntryOffset

end Code

section Image

variable (image : ℕ → Byte)

def eEntry : Word := wordAt image eEntryOffset

def ePhoff : ℕ := (wordAt image ePhoffOffset).toNat

def ePhnum : ℕ := (halfAt image ePhnumOffset).toNat

def proghdr (i : ℕ) : ℕ := ePhoff image + proghdrSize * i

def pOffset (i : ℕ) : ℕ := (wordAt image (proghdr image i + pOffsetOffset)).toNat

def pPa (i : ℕ) : ℕ := (wordAt image (proghdr image i + pPaOffset)).toNat

def pMemsz (i : ℕ) : ℕ := (wordAt image (proghdr image i + pMemszOffset)).toNat

def InExtent (i a : ℕ) : Prop := pPa image i / 512 * 512 ≤ a ∧ a < (pPa image i + pMemsz image i + 511) / 512 * 512

def InHeader (a : ℕ) : Prop := 0x10000 ≤ a ∧ a < 0x11000

structure Loadable (sectors : ℕ) : Prop where
  magic : wordAt image 0 = elfMagic
  headers : proghdr image (ePhnum image) ≤ 4096
  page : 9 ≤ sectors
  congruent : ∀ i < ePhnum image, pPa image i % 512 = pOffset image i % 512
  top : ∀ i < ePhnum image, pPa image i + pMemsz image i ≤ 4294966784
  onDisk : ∀ i < ePhnum image, pOffset image i + pMemsz image i ≤ 512 * (sectors - 1)
  apart : ∀ i < ePhnum image, ∀ j < ePhnum image, i ≠ j → ∀ a, InExtent image i a → ¬ InExtent image j a
  offHeader : ∀ i < ePhnum image, ∀ a, InExtent image i a → ¬ InHeader a

def OnDisk (s : Loader) : Prop :=
  ∀ k, k + 1 < s.sectors → ∀ i < 512, s.disk (512 * (k + 1) + i) = image (512 * k + i)

structure LoadedTo (s₀ : Loader) (j : ℕ) (s : Loader) : Prop where
  same : s₀.SameDisk s
  header : ∀ a < 4096, s.mem (0x10000 + a) = image a
  segments : ∀ i < j, ∀ k < pMemsz image i, s.mem (pPa image i + k) = image (pOffset image i + k)
  rest : ∀ a, ¬ InHeader a → (∀ i < ePhnum image, ¬ InExtent image i a) → s.mem a = s₀.mem a

end Image

variable {image : ℕ → Byte} {s s₀ s' : Loader} {ph eph p : Word} {a i j k n field : ℕ}

theorem OnDisk.byte (h : OnDisk image s) (ha : a < 512 * (s.sectors - 1)) : s.disk (512 + a) = image a := by
  have hsplit := h (a / 512) (by omega) (a % 512) (by omega)
  rwa [show 512 * (a / 512 + 1) + a % 512 = 512 + a by omega, show 512 * (a / 512) + a % 512 = a by omega] at hsplit

theorem extent_end (pa memsz : ℕ) : pa / 512 * 512 + 512 * sectorsOf pa memsz = (pa + memsz + 511) / 512 * 512 := by
  unfold sectorsOf
  omega

namespace LoadedTo

theorem byte {d : ℕ} (h : LoadedTo image s₀ j s) (ha : a + d < 4096) : s.mem (0x10000 + a + d) = image (a + d) := by
  rw [Nat.add_assoc, h.header _ ha]

theorem word (h : LoadedTo image s₀ j s) (field : ℕ) (hp : p.toNat = 0x10000 + a) (ha : a + field + 3 < 4096) :
    wordAt s.mem (p + BitVec.ofNat 32 field).toNat = wordAt image (a + field) := by
  have haddr : (p + BitVec.ofNat 32 field).toNat = 0x10000 + (a + field) := by
    rw [BitVec.toNat_add, BitVec.toNat_ofNat, hp, Nat.mod_eq_of_lt (by omega : field < 2 ^ 32)]
    omega
  unfold wordAt
  rw [haddr, h.byte (by omega), h.byte (by omega), h.byte (by omega), h.header _ (by omega)]

theorem half (h : LoadedTo image s₀ j s) (field : ℕ) (hp : p.toNat = 0x10000 + a) (ha : a + field + 1 < 4096) :
    halfAt s.mem (p + BitVec.ofNat 32 field).toNat = halfAt image (a + field) := by
  have haddr : (p + BitVec.ofNat 32 field).toNat = 0x10000 + (a + field) := by
    rw [BitVec.toNat_add, BitVec.toNat_ofNat, hp, Nat.mod_eq_of_lt (by omega : field < 2 ^ 32)]
    omega
  unfold halfAt
  rw [haddr, h.byte (by omega), h.header _ (by omega)]

theorem next (h : LoadedTo image s₀ j s) (hl : Loadable image s₀.sectors) (hd : OnDisk image s₀)
    (hj : j < ePhnum image)
    (hsame : s.SameDisk s') (hmem : s'.mem = blit s.mem (pPa image j / 512 * 512)
      (512 * sectorsOf (pPa image j) (pMemsz image j)) (fun i => s.disk (512 * (pOffset image j / 512 + 1) + i))) :
    LoadedTo image s₀ (j + 1) s' := by
  have hend := extent_end (pPa image j) (pMemsz image j)
  have houtside : ∀ a, ¬ InExtent image j a → s'.mem a = s.mem a := by
    intro a ha
    rw [hmem, Blit.outside]
    rw [InExtent, ← hend] at ha
    omega
  refine ⟨h.same.trans hsame, fun a ha => ?_, fun i hi k hk => ?_, fun a hh hx => ?_⟩
  · rw [houtside _ (fun hin => hl.offHeader j hj _ hin ⟨by omega, by omega⟩), h.header a ha]
  · rcases Nat.lt_succ_iff_lt_or_eq.mp hi with hlt | rfl
    · have hin : InExtent image i (pPa image i + k) := ⟨by omega, by omega⟩
      rw [houtside _ (hl.apart i (by omega) j hj (by omega) _ hin), h.segments i hlt k hk]
    · have hcongr := hl.congruent i hj
      have hdisk := hl.onDisk i hj
      have hidx : pPa image i + k = pPa image i / 512 * 512 + (pPa image i % 512 + k) := by omega
      have hlt : pPa image i % 512 + k < 512 * sectorsOf (pPa image i) (pMemsz image i) := by
        unfold sectorsOf
        omega
      rw [hidx, hmem, Blit.inside hlt, h.same.disk]
      have hbyte := @OnDisk.byte image s₀ (pOffset image i + k) hd (by omega)
      rw [← hbyte]
      congr 1
      omega
  · rw [houtside a (hx j hj), h.rest a hh hx]

end LoadedTo

theorem readHeader_ends (hp : s.Patient) (hd : OnDisk image s) (hpage : 9 ≤ s.sectors) :
    ∃ s', Ends (fun fuel => readseg fuel kelfHeader (sectsize * 8#32) 0#32) s () s' ∧ LoadedTo image s 0 s' := by
  obtain ⟨s', hret, hsame, hmem⟩ := @readseg_ends s 0#32 kelfHeader (sectsize * 8#32) hp (by decide) hpage
  refine ⟨s', hret, hsame, fun a ha => ?_, fun i hi => absurd hi (Nat.not_lt_zero i), fun a hh _ => ?_⟩
  · have hbyte := hd.byte (show a < 512 * (s.sectors - 1) by omega)
    rw [hmem, ← hbyte]
    exact Blit.inside ha
  · rw [hmem]
    apply Blit.outside
    change a < 65536 ∨ 65536 + 4096 ≤ a
    unfold InHeader at hh
    omega

theorem toNat_add_field {x : ℕ} (hp : p.toNat = 0x10000 + x) (hx : x + field ≤ 4096) :
    (p + BitVec.ofNat 32 field).toNat = 0x10000 + (x + field) := by
  rw [BitVec.toNat_add, BitVec.toNat_ofNat, hp, Nat.mod_eq_of_lt (show field < 2 ^ 32 by omega)]
  omega

theorem proghdr_add : proghdr image (j + n) = proghdr image j + 32 * n := by
  rw [proghdr, proghdr, proghdrSize, Nat.mul_add, Nat.add_assoc]

theorem kloadLoop_ends (hp : s₀.Patient) (hl : Loadable image s₀.sectors) (hd : OnDisk image s₀)
    (h : LoadedTo image s₀ j s) (hn : j + n = ePhnum image) (hph : ph.toNat = 0x10000 + proghdr image j)
    (heph : eph.toNat = 0x10000 + proghdr image (ePhnum image)) :
    ∃ p s', LoopEnds (fun fuel => kloadStep fuel eph) ph s p s' ∧ LoadedTo image s₀ (ePhnum image) s' := by
  have hlast := hl.headers
  induction n generalizing j s ph with
  | zero =>
    rw [Nat.add_zero] at hn
    have hstop : ¬ ph < eph := by
      rw [BitVec.lt_def, hph, heph, hn]
      exact Nat.lt_irrefl _
    refine ⟨ph, s, .stop ⟨0, fun fuel _ => returns_ite.mpr (Or.inr ⟨hstop, returns_pure.mpr ⟨rfl, rfl⟩⟩)⟩, ?_⟩
    rwa [← hn]
  | succ n ih =>
    have hj : j < ePhnum image := by omega
    have hafter : proghdr image (ePhnum image) = proghdr image j + 32 * (n + 1) := by rw [← hn, proghdr_add]
    have hgo : ph < eph := by
      rw [BitVec.lt_def, hph, heph, hafter]
      omega
    have hpa := h.word pPaOffset hph (by change _ + 12 + 3 < _; omega)
    have hmemsz := h.word pMemszOffset hph (by change _ + 20 + 3 < _; omega)
    have hoffset := h.word pOffsetOffset hph (by change _ + 4 + 3 < _; omega)
    have hsec : pOffset image j / 512 + 1 + sectorsOf (pPa image j) (pMemsz image j) ≤ s.sectors := by
      have hcongr := hl.congruent j hj
      have hdisk := hl.onDisk j hj
      have hpage := hl.page
      rw [h.same.sectors]
      unfold sectorsOf
      omega
    obtain ⟨s₁, hseg, hsame, hmem⟩ := readseg_ends (h.same.patient hp) (hl.top j hj) hsec
    have hnext := h.next hl hd hj hsame hmem
    have hph' : (ph + BitVec.ofNat 32 proghdrSize).toNat = 0x10000 + proghdr image (j + 1) := by
      rw [toNat_add_field hph (by change _ + 32 ≤ _; omega), proghdr_add]
      rfl
    obtain ⟨p, s', hloop, hdone⟩ := ih hnext (by omega) hph'
    refine ⟨p, s', .next ?_ hloop, hdone⟩
    have hturn : Ends (fun fuel => loadWord ph pPaOffset >>= fun pa => loadWord ph pMemszOffset >>= fun memsz =>
        loadWord ph pOffsetOffset >>= fun offset => readseg fuel pa memsz offset >>= fun _ =>
          (pure (some (ph + BitVec.ofNat 32 proghdrSize)) : Load (Option Word))) s
        (some (ph + BitVec.ofNat 32 proghdrSize)) s₁ := by
      refine .step (returns_read.mpr ⟨rfl, rfl⟩)
        (.step (returns_read.mpr ⟨rfl, rfl⟩) (.step (returns_read.mpr ⟨rfl, rfl⟩) ?_))
      rw [hpa, hmemsz, hoffset]
      exact hseg.bind (.of_returns (returns_pure.mpr ⟨rfl, rfl⟩))
    obtain ⟨N, hN⟩ := hturn
    exact ⟨N, fun fuel hle => returns_ite.mpr (Or.inl ⟨hgo, hN fuel hle⟩)⟩

theorem kload_loads (hp : s.Patient) (hd : OnDisk image s) (hl : Loadable image s.sectors) :
    ∃ s', Ends kload s (eEntry image) s' ∧
      (∀ i < ePhnum image, ∀ k < pMemsz image i, s'.mem (pPa image i + k) = image (pOffset image i + k)) ∧
      ∀ a, ¬ InHeader a → (∀ i < ePhnum image, ¬ InExtent image i a) → s'.mem a = s.mem a := by
  have hlast := hl.headers
  obtain ⟨s₁, hheader, hone⟩ := readHeader_ends hp hd hl.page
  have hbase : kelfHeader.toNat = 0x10000 + 0 := rfl
  have hmagic := hone.word 0 hbase (by omega)
  have hphoff := hone.word ePhoffOffset hbase (by change 0 + 28 + 3 < 4096; omega)
  have hphnum := hone.half ePhnumOffset hbase (by change 0 + 44 + 1 < 4096; omega)
  have hphle : ePhoff image ≤ 4096 := by
    unfold proghdr at hlast
    omega
  have hph : (kelfHeader + wordAt image ePhoffOffset).toNat = 0x10000 + proghdr image 0 := by
    rw [BitVec.toNat_add, hbase]
    change (0x10000 + 0 + ePhoff image) % 4294967296 = 0x10000 + (ePhoff image + 32 * 0)
    omega
  have heph : (kelfHeader + wordAt image ePhoffOffset + BitVec.ofNat 32 proghdrSize *
      (halfAt image ePhnumOffset).setWidth 32).toNat = 0x10000 + proghdr image (ePhnum image) := by
    have hsize : (BitVec.ofNat 32 proghdrSize * (halfAt image ePhnumOffset).setWidth 32).toNat =
      32 * ePhnum image := by
      have hlt := (halfAt image ePhnumOffset).isLt
      rw [BitVec.toNat_mul, BitVec.toNat_setWidth]
      change 32 * (ePhnum image % 4294967296) % 4294967296 = 32 * ePhnum image
      change ePhnum image < 65536 at hlt
      omega
    have hzero : proghdr image 0 = ePhoff image := rfl
    have hall : proghdr image (ePhnum image) = ePhoff image + 32 * ePhnum image := rfl
    rw [BitVec.toNat_add, hph, hsize, hzero, hall]
    rw [hall] at hlast
    change (0x10000 + ePhoff image + 32 * ePhnum image) % 4294967296 = _
    omega
  obtain ⟨p, s₂, hloop, hdone⟩ := kloadLoop_ends hp hl hd hone (Nat.zero_add _) hph heph
  have hentry := hdone.word eEntryOffset hbase (by change 0 + 24 + 3 < 4096; omega)
  refine ⟨s₂, hheader.bind (.step (returns_read.mpr ⟨rfl, rfl⟩) ?_), hdone.segments, hdone.rest⟩
  have hrest : Ends (fun fuel => loadWord kelfHeader ePhoffOffset >>= fun phoff =>
    loadHalf kelfHeader ePhnumOffset >>=
      fun phnum =>
        Prog.whileSome (kloadStep fuel (kelfHeader + phoff + BitVec.ofNat 32 proghdrSize * phnum.setWidth 32))
        fuel (kelfHeader + phoff) >>= fun _ => loadWord kelfHeader eEntryOffset) s₁ (eEntry image) s₂ := by
    refine .step (returns_read.mpr ⟨rfl, rfl⟩) (.step (returns_read.mpr ⟨rfl, rfl⟩) ?_)
    rw [hphoff, hphnum]
    exact hloop.ends.bind (.of_returns (returns_read.mpr ⟨hentry.symm, rfl⟩))
  obtain ⟨N, hN⟩ := hrest
  refine ⟨N, fun fuel hle => returns_ite.mpr (Or.inr ⟨not_not.mpr ?_, hN fuel hle⟩)⟩
  rw [hmagic]
  exact hl.magic

def smallImage : ℕ → Byte
  | 0 => 0x7F#8
  | 1 => 0x45#8
  | 2 => 0x4C#8
  | 3 => 0x46#8
  | 26 => 0x10#8
  | 28 => 52#8
  | 44 => 1#8
  | 56 => 0x58#8
  | 57 => 0x02#8
  | 64 => 0x58#8
  | 66 => 0x10#8
  | 72 => 0xBC#8
  | 73 => 0x02#8
  | a => if a < 84 then 0#8 else BitVec.ofNat 8 a

def smallLoader : Loader where
  mem _ := 0#8
  disk a := smallImage (a - 512)
  sectors := 9
  status _ := 0x40#8
  clock := 0
  drive := ⟨0#8, 0#8, 0#8, 0#8, 0#8, 0, 0, 0, false⟩

theorem smallLoader_patient : smallLoader.Patient := by
  intro t
  exact ⟨0, show isReady 0x40#8 = true by decide⟩

theorem smallImage_loadable : Loadable smallImage 9 := by
  have hcount : ePhnum smallImage = 1 := by decide +kernel
  have hpa : pPa smallImage 0 = 1048664 := by decide +kernel
  have hmemsz : pMemsz smallImage 0 = 700 := by decide +kernel
  have hoffset : pOffset smallImage 0 = 600 := by decide +kernel
  have hfirst : ∀ i < ePhnum smallImage, i = 0 := by
    intro i hi
    omega
  refine ⟨by decide +kernel, by decide +kernel, by decide, fun i hi => ?_, fun i hi => ?_, fun i hi => ?_,
    fun i hi j hj hne => ?_, fun i hi a ha hh => ?_⟩
  · rw [hfirst i hi, hpa, hoffset]
  · rw [hfirst i hi, hpa, hmemsz]
    decide
  · rw [hfirst i hi, hoffset, hmemsz]
    decide
  · exact absurd ((hfirst i hi).trans (hfirst j hj).symm) hne
  · rw [hfirst i hi, InExtent, hpa] at ha
    unfold InHeader at hh
    omega

theorem kload_loads_small : ∃ s', Ends kload smallLoader (eEntry smallImage) s' ∧ s'.mem 1048664 = 0x58#8 := by
  have hdisk : OnDisk smallImage smallLoader := by
    intro k _ i _
    have hidx : 512 * (k + 1) + i - 512 = 512 * k + i := by omega
    simp only [smallLoader, hidx]
  obtain ⟨s', hret, hsegments, _⟩ := kload_loads smallLoader_patient hdisk smallImage_loadable
  have hbyte := hsegments 0 (by decide +kernel) 0 (by decide +kernel)
  exact ⟨s', hret, hbyte.trans (by decide +kernel)⟩

end Cezos
