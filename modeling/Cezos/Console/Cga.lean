import Cezos.Lib.Blit
import Cezos.Lib.Keeps
import Cezos.Lib.Screen
import Cezos.Stdio.Snprintf

namespace Cezos

open Lib

def crtRows : ℕ := 25
def crtCols : ℕ := 80
def crtSize : ℕ := crtRows * crtCols

structure Console where
  /-- what the device behind a port answers at its moment -/
  device : ℕ → BitVec 16 → Byte
  clock : ℕ
  outs : List (BitVec 16 × Byte)
  port : CInt
  /-- the bytes of video memory from `c_buffer` on -/
  video : ℕ → Byte
  cPos : BitVec 16
  serialExists : Bool
  /-- the static `shift` of `kbd_proc_data` -/
  shift : Word
  /-- what `cprintf` reads -/
  mem : Bytes

abbrev Con := Prog Console

namespace Console

def cell (s : Console) (k : ℕ) : BitVec 16 := s.video (2 * k + 1) ++ s.video (2 * k)

def screen (s : Console) : Screen (BitVec 16) := ⟨s.cell, s.cPos.toNat⟩

def setVideo (s : Console) (video : ℕ → Byte) : Console := { s with video := video }

def setPos (s : Console) (pos : BitVec 16) : Console := { s with cPos := pos }

@[simp] theorem setVideo_video {s : Console} {video : ℕ → Byte} : (s.setVideo video).video = video := rfl
@[simp] theorem setVideo_cPos {s : Console} {video : ℕ → Byte} : (s.setVideo video).cPos = s.cPos := rfl
@[simp] theorem setVideo_setVideo {s : Console} {v v' : ℕ → Byte} : (s.setVideo v).setVideo v' = s.setVideo v' := rfl
@[simp] theorem setPos_cPos {s : Console} {pos : BitVec 16} : (s.setPos pos).cPos = pos := rfl
@[simp] theorem setPos_cell {s : Console} {pos : BitVec 16} : (s.setPos pos).cell = s.cell := rfl

end Console

/-! ### Ports -/

def inb (port : CInt) : Con Byte := do
  let data ← Prog.read (fun s => s.device s.clock (port.setWidth 16))
  Prog.modify (fun s => { s with clock := s.clock + 1 })
  return data

def outb (port : CInt) (data : Byte) : Con Unit :=
  Prog.modify (fun s => { s with outs := s.outs ++ [(port.setWidth 16, data)], clock := s.clock + 1 })

def delay : Con Unit := do
  let _ ← inb 0x84#32
  let _ ← inb 0x84#32
  let _ ← inb 0x84#32
  let _ ← inb 0x84#32
  return ()

def com1 : CInt := 0x3F8#32
def comRx : CInt := 0#32
def comTx : CInt := 0#32
def comLsr : CInt := 5#32
def comLsrData : Byte := 0x01#8
def comLsrTxrdy : Byte := 0x20#8

def serialPutc (c : CInt) : Con Unit := do
  let _ ← Prog.whileSome (fun i => do
    let lsr ← inb (com1 + comLsr)
    if lsr &&& comLsrTxrdy = 0#8 ∧ i < 12800 then do
      delay
      return some (i + 1)
    else return none) 12801 0
  outb (com1 + comTx) (c.setWidth 8)

def lptPutc (c : CInt) : Con Unit := do
  let _ ← Prog.whileSome (fun i => do
    let status ← inb (0x378#32 + 1#32)
    if status &&& 0x80#8 = 0#8 ∧ i < 12800 then do
      delay
      return some (i + 1)
    else return none) 12801 0
  outb (0x378#32 + 0#32) (c.setWidth 8)
  outb (0x378#32 + 2#32) (0x08#8 ||| 0x04#8 ||| 0x01#8)
  outb (0x378#32 + 2#32) 0x08#8

/-! ### Video memory -/

def putCell (video : ℕ → Byte) (k : ℕ) (w : BitVec 16) : ℕ → Byte :=
  Function.update (Function.update video (2 * k) (w.setWidth 8)) (2 * k + 1) ((w >>> 8).setWidth 8)

def setCell (k : ℕ) (w : BitVec 16) : Con Unit := do
  Prog.check (fun _ => decide (k < crtSize))
  Prog.modify (fun s => s.setVideo (putCell s.video k w))

def copyByte (p q : ℕ) : Con Unit := do
  Prog.check (fun _ => decide (p < 2 * crtSize ∧ q < 2 * crtSize))
  Prog.modify (fun s => s.setVideo (Function.update s.video p (s.video q)))

def memcpy (dst src len : ℕ) : Con Unit := Prog.forUp (fun i => copyByte (dst + i) (src + i)) 0 len

def memmove (dst src len : ℕ) : Con Unit := memcpy dst src len

def blankCell : BitVec 16 := 0x0700#16 ||| 0x20#16

/-! ### `cga_putc` -/

def withAttr (c : CInt) : CInt := if c &&& ~~~0xFF#32 = 0#32 then c ||| 0x0700#32 else c

def cgaSwitch (consolePutc : CInt → Con Unit) (c : CInt) : Con Unit := do
  let pos ← Prog.read (·.cPos)
  if c &&& 0xFF#32 = chr '\x08' then
    if 0#16 < pos then do
      Prog.modify (·.setPos (pos - 1#16))
      setCell (pos - 1#16).toNat ((c &&& ~~~0xFF#32 ||| chr ' ').setWidth 16)
    else return ()
  else if c &&& 0xFF#32 = chr '\n' then
    Prog.modify (·.setPos (pos + 80#16 - (pos + 80#16) % 80#16))
  else if c &&& 0xFF#32 = chr '\r' then
    Prog.modify (·.setPos (pos - pos % 80#16))
  else if c &&& 0xFF#32 = chr '\t' then do
    consolePutc (chr ' ')
    consolePutc (chr ' ')
    consolePutc (chr ' ')
    consolePutc (chr ' ')
    consolePutc (chr ' ')
  else do
    setCell pos.toNat (c.setWidth 16)
    Prog.modify (·.setPos (pos + 1#16))

def cgaScroll : Con Unit := do
  let pos ← Prog.read (·.cPos)
  if crtSize ≤ pos.toNat then do
    memmove 0 (2 * crtCols) ((crtSize - crtCols) * 2)
    Prog.forUp (fun i => setCell i blankCell) (crtSize - crtCols) crtCols
    Prog.modify (·.setPos (pos - 80#16))
  else return ()

def cgaCursor : Con Unit := do
  let s ← Prog.read id
  outb s.port 14#8
  outb (s.port + 1#32) ((s.cPos >>> 8).setWidth 8)
  outb s.port 15#8
  outb (s.port + 1#32) (s.cPos.setWidth 8)

/-- The calls nest at most `depth` deep. -/
def cgaPutc : ℕ → CInt → Con Unit
  | 0, _ => Prog.spin
  | depth + 1, c => do
    cgaSwitch (fun c => do
      serialPutc c
      lptPutc c
      cgaPutc depth c) (withAttr c)
    cgaScroll
    cgaCursor

def consolePutc (depth : ℕ) (c : CInt) : Con Unit := do
  serialPutc c
  lptPutc c
  cgaPutc depth c

def cputchar (depth : ℕ) (c : CInt) : Con Unit := consolePutc depth c

/-! ### What they do to the screen -/

variable {s s' : Console} {k n m : ℕ} {c : CInt} {w : BitVec 16} {depth : ℕ} {t : Screen (BitVec 16)}

theorem cell_putCell : (s.setVideo (putCell s.video k w)).cell = Function.update s.cell k w := by
  funext j
  change (putCell s.video k w (2 * j + 1) ++ putCell s.video k w (2 * j) : BitVec (8 + 8)) = _
  unfold putCell
  by_cases hj : j = k
  · subst hj
    rw [Function.update_self, Function.update_of_ne (by omega), Function.update_self, Function.update_self]
    ext i hi
    rw [BitVec.getElem_append]
    split
    · simp [BitVec.getLsbD_eq_getElem hi]
    · have hsum : 8 + (i - 8) = i := by omega
      simp [hsum, BitVec.getLsbD_eq_getElem hi]
  · rw [Function.update_of_ne (by omega), Function.update_of_ne (by omega), Function.update_of_ne (by omega),
      Function.update_of_ne (by omega), Function.update_of_ne hj]
    rfl

theorem setCell_returns (hk : k < crtSize) : Returns true (setCell k w) s () (s.setVideo (putCell s.video k w)) :=
  returns_bind.mpr ⟨(), s, returns_check.mpr ⟨rfl, fun _ => decide_eq_true hk⟩, returns_modify.mpr rfl⟩

theorem inb_eval {port : CInt} {s : Console} :
    inb port s = .ret (s.device s.clock (port.setWidth 16)) { s with clock := s.clock + 1 } true := rfl

theorem keeps_inb {τ : Type} {f : Console → τ} {port : CInt} (hf : ∀ s n, f { s with clock := n } = f s) :
    Keeps f (inb port) :=
  .bind (.read _) (fun _ => .bind (.modify fun s => hf s _) (fun _ => .pure _))

theorem keeps_outb {port : CInt} {data : Byte} : Keeps Console.screen (outb port data) := .modify fun _ => rfl

theorem keeps_delay {τ : Type} {f : Console → τ} (hf : ∀ s n, f { s with clock := n } = f s) : Keeps f delay :=
  (keeps_inb hf).bind
  (fun _ => (keeps_inb hf).bind (fun _ => (keeps_inb hf).bind (fun _ => (keeps_inb hf).bind (fun _ => .pure _))))

theorem keeps_wait {τ : Type} {f : Console → τ} {port : CInt} {mask : Byte}
    (hf : ∀ s n, f { s with clock := n } = f s) :
    Keeps f (Prog.whileSome (fun i => do
      let status ← inb port
      if status &&& mask = 0#8 ∧ i < 12800 then do
        delay
        return some (i + 1)
      else return none) 12801 0) := by
  refine .whileSome (fun i => 12800 - i) (fun i s => ?_) (by omega)
  obtain ⟨status, s₁, h₁, hf₁⟩ := @keeps_inb _ f port hf s
  by_cases hw : status &&& mask = 0#8 ∧ i < 12800
  · obtain ⟨_, s₂, h₂, hf₂⟩ := keeps_delay hf s₁
    refine ⟨some (i + 1), s₂, ?_, hf₂.trans hf₁, fun b hb => ?_⟩
    · rw [returns_bind]
      exact ⟨status, s₁, h₁,
        returns_ite.mpr (Or.inl ⟨hw, returns_bind.mpr ⟨_, s₂, h₂, returns_pure.mpr ⟨rfl, rfl⟩⟩⟩)⟩
    · cases hb
      omega
  · refine ⟨none, s₁, ?_, hf₁, fun b hb => by cases hb⟩
    rw [returns_bind]
    exact ⟨status, s₁, h₁, returns_ite.mpr (Or.inr ⟨hw, returns_pure.mpr ⟨rfl, rfl⟩⟩)⟩

theorem keeps_serialPutc : Keeps Console.screen (serialPutc c) :=
    (keeps_wait fun _ _ => rfl).bind (fun _ => keeps_outb)

theorem keeps_lptPutc : Keeps Console.screen (lptPutc c) :=
  (keeps_wait fun _ _ => rfl).bind (fun _ => keeps_outb.bind (fun _ => keeps_outb.bind (fun _ => keeps_outb)))

theorem keeps_cgaCursor : Keeps Console.screen cgaCursor :=
  .bind (.read _)
    (fun _ => keeps_outb.bind (fun _ => keeps_outb.bind (fun _ => keeps_outb.bind (fun _ => keeps_outb))))

theorem copyByte_returns {p q : ℕ} (hp : p < 2 * crtSize) (hq : q < 2 * crtSize) :
    Returns true (copyByte p q) s () (s.setVideo (Function.update s.video p (s.video q))) :=
  returns_bind.mpr ⟨(), s, returns_check.mpr ⟨rfl, fun _ => decide_eq_true ⟨hp, hq⟩⟩, returns_modify.mpr rfl⟩

theorem memcpy_returns {dst src len : ℕ} (hd : dst ≤ src) (hl : src + len ≤ 2 * crtSize) :
    Returns true (memcpy dst src len) s () (s.setVideo (blit s.video dst len (fun i => s.video (src + i)))) := by
  let copied (k : ℕ) : Console := s.setVideo (blit s.video dst k (fun i => s.video (src + i)))
  have step : ∀ k s₁, 0 ≤ k → k < 0 + len → s₁ = copied k →
      ∃ s₂, Returns true (copyByte (dst + k) (src + k)) s₁ () s₂ ∧ s₂ = copied (k + 1) := by
    rintro k s₁ _ hk rfl
    refine ⟨_, copyByte_returns (by omega) (by omega), ?_⟩
    rw [Console.setVideo_setVideo, Console.setVideo_video, Blit.copy hd]
  have start : s = copied 0 := by
    change s = s.setVideo (blit s.video dst 0 _)
    rw [Blit.zero]
    rfl
  obtain ⟨s', hr, hs'⟩ := forUp_returns step start
  rw [hs', Nat.zero_add] at hr
  exact hr

theorem fill_returns {lo : ℕ} (hl : lo + n ≤ crtSize) :
    ∃ s', Returns true (Prog.forUp (fun i => setCell i w) lo n) s () s' ∧
    s'.cell = blit s.cell lo n (fun _ => w) ∧ s'.cPos = s.cPos := by
  have step : ∀ k s₁, lo ≤ k → k < lo + n → s₁.cell = blit s.cell lo (k - lo) (fun _ => w) ∧ s₁.cPos = s.cPos →
      ∃ s₂, Returns true (setCell k w) s₁ () s₂ ∧
        s₂.cell = blit s.cell lo (k + 1 - lo) (fun _ => w) ∧ s₂.cPos = s.cPos := by
    rintro k s₁ hk hk' ⟨hc, hp⟩
    refine ⟨_, setCell_returns (by omega), ?_, hp⟩
    rw [cell_putCell, hc, Nat.sub_add_comm hk, Blit.succ, Nat.add_sub_cancel' hk]
  obtain ⟨s', hr, hc, hp⟩ := forUp_returns step (by rw [Nat.sub_self, Blit.zero]; exact ⟨rfl, rfl⟩)
  rw [Nat.add_sub_cancel_left] at hc
  exact ⟨s', hr, hc, hp⟩

theorem cell_moved : (s.setVideo (blit s.video 0 (n * 2) (fun i => s.video (2 * m + i)))).cell k =
    if k < n then s.cell (k + m) else s.cell k := by
  unfold Console.cell
  rw [Console.setVideo_video]
  split
  · have hlo : blit s.video 0 (n * 2) (fun i => s.video (2 * m + i)) (2 * k) = s.video (2 * (k + m)) := by
      rw [← Nat.zero_add (2 * k), Blit.inside (by omega)]
      congr 1
      omega
    have hhi : blit s.video 0 (n * 2) (fun i => s.video (2 * m + i)) (2 * k + 1) = s.video (2 * (k + m) + 1) := by
      rw [← Nat.zero_add (2 * k + 1), Blit.inside (by omega)]
      congr 1
      omega
    rw [hlo, hhi]
  · rw [Blit.outside (by omega), Blit.outside (by omega)]

def scrolled (t : Screen (BitVec 16)) : Screen (BitVec 16) := t.scroll crtCols crtRows blankCell

theorem cgaScroll_returns : ∃ s', Returns true cgaScroll s () s' ∧ s'.screen = scrolled s.screen := by
  unfold cgaScroll scrolled
  by_cases hp : crtSize ≤ s.cPos.toNat
  · have hmove : Returns true (memmove 0 (2 * crtCols) ((crtSize - crtCols) * 2)) s () _ :=
      memcpy_returns (by decide) (by decide)
    generalize hs₁ : s.setVideo _ = s₁ at hmove
    obtain ⟨s₂, hfill, hc, hpos⟩ := @fill_returns s₁ crtCols blankCell (crtSize - crtCols) (by decide)
    refine ⟨s₂.setPos (s.cPos - 80#16), ?_, ?_⟩
    · rw [returns_bind]
      refine ⟨_, s, returns_read.mpr ⟨rfl, rfl⟩, returns_ite.mpr (Or.inl ⟨hp, ?_⟩)⟩
      rw [returns_bind]
      refine ⟨(), s₁, hmove, ?_⟩
      rw [returns_bind]
      exact ⟨(), s₂, hfill, returns_modify.mpr rfl⟩
    · have hlow : ¬ s.screen.pos < crtCols * crtRows := Nat.not_lt.mpr hp
      rw [Screen.scroll, if_neg hlow]
      apply Screen.ext
      · funext k
        change s₂.cell k = if k + crtCols < crtCols * crtRows then s.cell (k + crtCols)
          else if k < crtCols * crtRows then blankCell else s.cell k
        have hsize : crtCols * crtRows = crtSize := rfl
        have hle : crtCols ≤ crtSize := by decide
        rw [hc, ← hs₁, blit, cell_moved, hsize]
        by_cases hk : k + crtCols < crtSize
        · rw [if_neg (by omega), if_pos (by omega), if_pos hk]
        · rw [if_neg hk]
          by_cases hk' : k < crtSize
          · rw [if_pos (by omega), if_pos hk']
          · rw [if_neg (by omega), if_neg (by omega), if_neg hk']
      · change (s.cPos - 80#16).toNat = s.cPos.toNat - crtCols
        have h80 : crtSize = 2000 := rfl
        have hc80 : crtCols = 80 := rfl
        rw [BitVec.toNat_sub_of_le (by rw [BitVec.le_def]; change 80 ≤ _; omega)]
        rfl
  · refine ⟨s, ?_, ?_⟩
    · rw [returns_bind]
      exact ⟨_, s, returns_read.mpr ⟨rfl, rfl⟩, returns_ite.mpr (Or.inr ⟨hp, returns_pure.mpr ⟨rfl, rfl⟩⟩)⟩
    · have hin : s.screen.pos < crtCols * crtRows := Nat.lt_of_not_le hp
      rw [Screen.scroll, if_pos hin]

def cgaMove (c : CInt) (t : Screen (BitVec 16)) : Screen (BitVec 16) :=
  if c &&& 0xFF#32 = chr '\x08' then t.erase ((c &&& ~~~0xFF#32 ||| chr ' ').setWidth 16)
  else if c &&& 0xFF#32 = chr '\n' then t.newline crtCols
  else if c &&& 0xFF#32 = chr '\r' then t.carriage crtCols
  else t.write (c.setWidth 16)

theorem newline_pos {p : BitVec 16} (hp : p.toNat < crtSize) :
    (p + 80#16 - (p + 80#16) % 80#16).toNat = (p.toNat / crtCols + 1) * crtCols := by
  have h80 : crtCols = 80 := rfl
  have hsize : crtSize = 2000 := rfl
  have hadd : (p + 80#16).toNat = p.toNat + 80 := by
    rw [BitVec.toNat_add]
    exact Nat.mod_eq_of_lt (by change p.toNat + 80 < 65536; omega)
  have hmod : ((p + 80#16) % 80#16).toNat = (p.toNat + 80) % 80 := by
    rw [BitVec.toNat_umod, hadd]
    rfl
  rw [BitVec.toNat_sub_of_le (by rw [BitVec.le_def, hmod, hadd]; omega), hmod, hadd, h80]
  omega

theorem carriage_pos {p : BitVec 16} : (p - p % 80#16).toNat = p.toNat / crtCols * crtCols := by
  have h80 : crtCols = 80 := rfl
  have hmod : (p % 80#16).toNat = p.toNat % 80 := BitVec.toNat_umod
  rw [BitVec.toNat_sub_of_le (by rw [BitVec.le_def, hmod]; omega), hmod, h80]
  omega

theorem moveAndSet_returns {p : BitVec 16} (hp : p.toNat < crtSize) :
    Returns true (Prog.modify (·.setPos p) >>= fun _ => setCell p.toNat w) s ()
      ((s.setPos p).setVideo (putCell s.video p.toNat w)) :=
  returns_bind.mpr ⟨(), s.setPos p, returns_modify.mpr rfl, setCell_returns hp⟩

theorem setAndMove_returns {p : BitVec 16} (hk : k < crtSize) :
    Returns true (setCell k w >>= fun _ => Prog.modify (·.setPos p)) s ()
      ((s.setVideo (putCell s.video k w)).setPos p) :=
  returns_bind.mpr ⟨(), _, setCell_returns hk, returns_modify.mpr rfl⟩

/-- From a cursor at `p` the character brings it to a cell of the screen. -/
def Recovers (p : ℕ) (c : CInt) : Prop :=
  p < crtSize ∨ (c &&& 0xFF#32 = chr '\r' ∧ p < crtSize + crtCols) ∨ (c &&& 0xFF#32 = chr '\x08' ∧ p = crtSize)

theorem Recovers.inside {p : ℕ} (h : Recovers p c) (hr : c &&& 0xFF#32 ≠ chr '\r')
    (hb : c &&& 0xFF#32 ≠ chr '\x08') : p < crtSize := by
  rcases h with h | ⟨h, _⟩ | ⟨h, _⟩
  · exact h
  · exact absurd h hr
  · exact absurd h hb

theorem Recovers.erases {p : ℕ} (h : Recovers p c) (hb : c &&& 0xFF#32 = chr '\x08') : p ≤ crtSize := by
  rcases h with h | ⟨h, _⟩ | ⟨_, h⟩
  · exact Nat.le_of_lt h
  · rw [hb] at h
    exact absurd h (by decide)
  · exact Nat.le_of_eq h

theorem cgaSwitch_returns {putc : CInt → Con Unit} (hs : Recovers s.cPos.toNat c) (hc : c &&& 0xFF#32 ≠ chr '\t') :
    ∃ s', Returns true (cgaSwitch putc c) s () s' ∧ s'.screen = cgaMove c s.screen := by
  unfold cgaSwitch cgaMove
  simp only [returns_bind, returns_read]
  by_cases hb : c &&& 0xFF#32 = chr '\x08'
  · simp only [if_pos hb]
    by_cases hpos : 0#16 < s.cPos
    · have hle := hs.erases hb
      have hsub : (s.cPos - 1#16).toNat = s.cPos.toNat - 1 := by bv_omega
      have hzero : 0 < s.cPos.toNat := hpos
      have hcell : (s.cPos - 1#16).toNat < crtSize := by omega
      refine ⟨_, ⟨_, s, ⟨rfl, rfl⟩, returns_ite.mpr (Or.inl ⟨hpos, moveAndSet_returns hcell⟩)⟩, ?_⟩
      have hlt : 0 < s.screen.pos := hpos
      rw [Screen.erase, if_pos hlt]
      refine Screen.ext ?_ hsub
      change (Console.cell _) = Function.update s.cell (s.cPos.toNat - 1) _
      rw [← hsub]
      exact cell_putCell
    · refine ⟨s, ⟨_, s, ⟨rfl, rfl⟩, returns_ite.mpr (Or.inr ⟨hpos, returns_pure.mpr ⟨rfl, rfl⟩⟩)⟩, ?_⟩
      have hlt : ¬ 0 < s.screen.pos := hpos
      rw [Screen.erase, if_neg hlt]
  · simp only [if_neg hb]
    by_cases hn : c &&& 0xFF#32 = chr '\n'
    · simp only [if_pos hn]
      have hin := hs.inside (by rw [hn]; decide) hb
      exact ⟨_, ⟨_, s, ⟨rfl, rfl⟩, returns_modify.mpr rfl⟩, Screen.ext rfl (newline_pos hin)⟩
    · simp only [if_neg hn]
      by_cases hr : c &&& 0xFF#32 = chr '\r'
      · simp only [if_pos hr]
        exact ⟨_, ⟨_, s, ⟨rfl, rfl⟩, returns_modify.mpr rfl⟩, Screen.ext rfl carriage_pos⟩
      · simp only [if_neg hr, if_neg hc]
        have hin := hs.inside hr hb
        refine ⟨_, ⟨_, s, ⟨rfl, rfl⟩, setAndMove_returns hin⟩, ?_⟩
        apply Screen.ext
        · change (Console.cell _) = Function.update s.cell s.cPos.toNat _
          rw [Console.setPos_cell, cell_putCell]
        · change (s.cPos + 1#16).toNat = s.cPos.toNat + 1
          have hsize : crtSize = 2000 := rfl
          rw [BitVec.toNat_add]
          exact Nat.mod_eq_of_lt (by change s.cPos.toNat + 1 < 65536; omega)

/-! ### `console_putc` -/

def Acts (x : Con Unit) (g : Screen (BitVec 16) → Screen (BitVec 16)) : Prop :=
  ∀ s, s.cPos.toNat < crtSize → ∃ s', Returns true x s () s' ∧ s'.screen = g s.screen ∧ s'.cPos.toNat < crtSize

theorem Acts.bind {x y : Con Unit} {f g : Screen (BitVec 16) → Screen (BitVec 16)} (hx : Acts x f) (hy : Acts y g) :
    Acts (x >>= fun _ => y) (g ∘ f) := by
  intro s hs
  obtain ⟨s₁, h₁, hf, hs₁⟩ := hx s hs
  obtain ⟨s₂, h₂, hg, hs₂⟩ := hy s₁ hs₁
  exact ⟨s₂, returns_bind.mpr ⟨(), s₁, h₁, h₂⟩, by rw [hg, hf, Function.comp_apply], hs₂⟩

theorem Acts.of_keeps {x : Con Unit} (hx : Keeps Console.screen x) : Acts x id := by
  intro s hs
  obtain ⟨_, s', hr, hf⟩ := hx s
  have hpos : s'.cPos.toNat = s.cPos.toNat := congrArg Screen.pos hf
  exact ⟨s', hr, hf, by rwa [hpos]⟩

theorem cgaMove_pos (ht : Recovers t.pos c) : (cgaMove c t).pos < crtSize + crtCols := by
  have hsize : crtSize = 2000 := rfl
  have hcols : crtCols = 80 := rfl
  unfold cgaMove
  split
  · next hb =>
    have hle := ht.erases hb
    unfold Screen.erase
    split
    · change t.pos - 1 < _
      omega
    · omega
  · next hb =>
    split
    · next hn =>
      have hin := ht.inside (by rw [hn]; decide) hb
      change (t.pos / crtCols + 1) * crtCols < _
      rw [hcols]
      omega
    · split
      · change t.pos / crtCols * crtCols < _
        rw [hcols]
        rcases ht with h | ⟨_, h⟩ | ⟨_, h⟩ <;> omega
      · next hr =>
        have hin := ht.inside hr hb
        change t.pos + 1 < _
        omega

theorem scrolled_pos (ht : t.pos < crtSize + crtCols) : (scrolled t).pos < crtSize := by
  unfold scrolled Screen.scroll
  split
  · next hin => exact hin
  · change t.pos - crtCols < crtSize
    have hcols : crtCols ≤ crtSize := by decide
    have hpos : 0 < crtSize := by decide
    omega

theorem cgaPutc_returns (hs : Recovers s.cPos.toNat (withAttr c)) (hc : withAttr c &&& 0xFF#32 ≠ chr '\t') :
    ∃ s', Returns true (cgaPutc (depth + 1) c) s () s' ∧ s'.screen = scrolled (cgaMove (withAttr c) s.screen) ∧
      s'.cPos.toNat < crtSize := by
  obtain ⟨s₁, h₁, hmove⟩ := @cgaSwitch_returns s (withAttr c) (consolePutc depth) hs hc
  obtain ⟨s₂, h₂, hscroll⟩ := @cgaScroll_returns s₁
  obtain ⟨_, s₃, h₃, hkeep⟩ := keeps_cgaCursor s₂
  have hscreen : s₃.screen = scrolled (cgaMove (withAttr c) s.screen) := by rw [hkeep, hscroll, hmove]
  have hpos : s₃.screen.pos < crtSize := by
    rw [hscreen]
    exact scrolled_pos (cgaMove_pos hs)
  exact ⟨s₃, returns_bind.mpr ⟨(), s₁, h₁, returns_bind.mpr ⟨(), s₂, h₂, h₃⟩⟩, hscreen, hpos⟩

theorem cgaPutc_acts (hc : withAttr c &&& 0xFF#32 ≠ chr '\t') :
    Acts (cgaPutc (depth + 1) c) (fun t => scrolled (cgaMove (withAttr c) t)) :=
  fun _ hs => cgaPutc_returns (Or.inl hs) hc

theorem Acts.consolePutc {g : Screen (BitVec 16) → Screen (BitVec 16)} (h : Acts (cgaPutc depth c) g) :
    Acts (consolePutc depth c) g :=
  (Acts.of_keeps keeps_serialPutc).bind ((Acts.of_keeps keeps_lptPutc).bind h)

def tabbed (t : Screen (BitVec 16)) : Screen (BitVec 16) := (fun t => scrolled (t.write blankCell))^[5] t

theorem cgaPutc_tab (hc : withAttr c &&& 0xFF#32 = chr '\t') : Acts (cgaPutc (depth + 2) c) tabbed := by
  intro s hs
  have hblank : Acts (consolePutc (depth + 1) (chr ' ')) (fun t => scrolled (t.write blankCell)) :=
    (cgaPutc_acts (by decide)).consolePutc
  obtain ⟨s₁, h₁, hfive, hs₁⟩ := (hblank.bind (hblank.bind (hblank.bind (hblank.bind hblank)))) s hs
  obtain ⟨s₂, h₂, hscroll⟩ := @cgaScroll_returns s₁
  obtain ⟨_, s₃, h₃, hkeep⟩ := keeps_cgaCursor s₂
  have hsame : scrolled s₁.screen = s₁.screen := if_pos hs₁
  have hscreen : s₃.screen = s₁.screen := by rw [hkeep, hscroll, hsame]
  refine ⟨s₃, ?_, hscreen.trans hfive, ?_⟩
  · have hswitch : Returns true (cgaSwitch (consolePutc (depth + 1)) (withAttr c)) s () s₁ := by
      unfold cgaSwitch
      simp only [returns_bind, returns_read]
      refine ⟨_, s, ⟨rfl, rfl⟩, ?_⟩
      rw [hc]
      exact h₁
    exact returns_bind.mpr ⟨(), s₁, hswitch, returns_bind.mpr ⟨(), s₂, h₂, h₃⟩⟩
  · have hpos : s₃.cPos.toNat = s₁.cPos.toNat := congrArg Screen.pos hscreen
    rwa [hpos]

def putOn (c : CInt) (t : Screen (BitVec 16)) : Screen (BitVec 16) :=
  if withAttr c &&& 0xFF#32 = chr '\t' then tabbed t else scrolled (cgaMove (withAttr c) t)

theorem cputchar_acts (hd : 2 ≤ depth) : Acts (cputchar depth c) (putOn c) := by
  obtain ⟨d, rfl⟩ : ∃ d, depth = d + 2 := ⟨depth - 2, by omega⟩
  by_cases hc : withAttr c &&& 0xFF#32 = chr '\t'
  · have heq : putOn c = tabbed := funext fun t => if_pos hc
    rw [heq]
    exact (cgaPutc_tab hc).consolePutc
  · have heq : putOn c = fun t => scrolled (cgaMove (withAttr c) t) := funext fun t => if_neg hc
    rw [heq]
    exact (cgaPutc_acts hc).consolePutc

end Cezos
