import Cezos.Console.Command
import Cezos.Console.Cursor
import Cezos.Lib.Preserves

namespace Cezos

open Lib

def comDll : CInt := 0#32
def comDlm : CInt := 1#32
def comIer : CInt := 1#32
def comIerRdi : Byte := 0x01#8
def comIir : CInt := 2#32
def comFcr : CInt := 2#32
def comLcr : CInt := 3#32
def comLcrDlab : Byte := 0x80#8
def comLcrWlen8 : Byte := 0x03#8
def comMcr : CInt := 4#32

def serialInit : Con Unit := do
  outb (com1 + comFcr) 0#8
  outb (com1 + comLcr) comLcrDlab
  outb (com1 + comDll) (BitVec.ofNat 8 (115200 / 9600))
  outb (com1 + comDlm) 0#8
  outb (com1 + comLcr) (comLcrWlen8 &&& ~~~comLcrDlab)
  outb (com1 + comMcr) 0#8
  outb (com1 + comIer) comIerRdi
  let lsr ← inb (com1 + comLsr)
  Prog.modify (fun s => { s with serialExists := decide (lsr ≠ 0xFF#8) })
  let _ ← inb (com1 + comIir)
  let _ ← inb (com1 + comRx)
  return ()

structure Display where
  con : Console
  /-- the bytes from `CGA_BUFF_ADDR` and from `MONOCHROME_BUFF_ADDR` on -/
  cga : ℕ → Byte
  mono : ℕ → Byte
  /-- a write at `CGA_BUFF_ADDR` is kept -/
  kept : Bool

def onDisplay {α : Type} (x : Con α) : Prog Display α := Prog.zoom (·.con) (fun s con => { s with con := con }) x

def loadProbe : Prog Display (BitVec 16) := Prog.read (fun s => s.cga 1 ++ s.cga 0)

def storeProbe (w : BitVec 16) : Prog Display Unit :=
  Prog.modify (fun s => if s.kept then { s with cga := putCell s.cga 0 w } else s)

def pointAt (port : CInt) (buffer : Display → ℕ → Byte) : Prog Display Unit :=
  Prog.modify (fun s => { s with con := { s.con with port := port, video := buffer s } })

def cursorFrom (port : CInt) : Con Unit := do
  outb port 14#8
  let high ← inb (port + 1#32)
  outb port 15#8
  let low ← inb (port + 1#32)
  Prog.modify (·.setPos ((high.setWidth 32 <<< 8 ||| low.setWidth 32 : CInt).setWidth 16))

def selectBuffer (base seen : BitVec 16) : Prog Display Unit :=
  if seen ≠ 0xCE70#16 then pointAt monochromePort Display.mono
  else do
    storeProbe base
    pointAt cgaPort Display.cga

def Display.initCga : Prog Display Unit := do
  let base ← loadProbe
  storeProbe 0xCE70#16
  let seen ← loadProbe
  selectBuffer base seen
  let port ← Prog.read (·.con.port)
  onDisplay (cursorFrom port)

def kbdInit : Prog Display Unit := return ()

def Display.consoleInit (text : ConsoleTexts) (noSerial : Word) (depth fuel : ℕ) : Prog Display Unit := do
  Display.initCga
  kbdInit
  onDisplay serialInit
  let serialExists ← Prog.read (·.con.serialExists)
  if serialExists = false then do
    let _ ← onDisplay (consolePrintf text depth fuel noSerial [])
    return ()
  else return ()

variable {st : Bool} {d d' : Display} {s s' : Console}

def Display.found (d : Display) : Bool := d.kept || decide (d.cga 1 ++ d.cga 0 = 0xCE70#16)

def Display.buffer (d : Display) : ℕ → Byte := if d.found then d.cga else d.mono

def Display.port (d : Display) : CInt := if d.found then cgaPort else monochromePort

def Display.pointed (d : Display) : Console := { d.con with port := d.port, video := d.buffer }

theorem append_halves (w : BitVec 16) : (w >>> 8).setWidth 8 ++ w.setWidth 8 = w := by
  apply BitVec.eq_of_getLsbD_eq
  intro i hi
  rw [BitVec.getLsbD_append]
  by_cases h : i < 8
  · simp [h]
  · have hsum : 8 + (i - 8) = i := by omega
    have hlt : i - 8 < 8 := by omega
    simp [h, hlt, hsum]

theorem putCell_read (v : ℕ → Byte) (w : BitVec 16) : putCell v 0 w 1 ++ putCell v 0 w 0 = w := by
  have h0 : putCell v 0 w 0 = w.setWidth 8 := by simp [putCell]
  have h1 : putCell v 0 w 1 = (w >>> 8).setWidth 8 := by simp [putCell]
  rw [h0, h1, append_halves]

theorem append_low (x y : Byte) : (x ++ y : BitVec 16).setWidth 8 = y := by
  apply BitVec.eq_of_getLsbD_eq
  intro i hi
  rw [BitVec.getLsbD_setWidth, BitVec.getLsbD_append]
  simp [hi]

theorem append_high (x y : Byte) : ((x ++ y : BitVec 16) >>> 8).setWidth 8 = x := by
  apply BitVec.eq_of_getLsbD_eq
  intro i hi
  rw [BitVec.getLsbD_setWidth, BitVec.getLsbD_ushiftRight, BitVec.getLsbD_append]
  simp [hi]

theorem putCell_restore (v : ℕ → Byte) (w : BitVec 16) : putCell (putCell v 0 w) 0 (v 1 ++ v 0) = v := by
  funext j
  by_cases hj1 : j = 1
  · subst hj1
    simp [putCell, append_high]
  · by_cases hj0 : j = 0
    · subst hj0
      simp [putCell, append_low]
    · simp [putCell, hj0, hj1]

theorem join_bytes (x y : Byte) : ((x.setWidth 32 <<< 8 ||| y.setWidth 32 : CInt).setWidth 16) = x ++ y := by
  apply BitVec.eq_of_getLsbD_eq
  intro i hi
  rw [BitVec.getLsbD_append]
  by_cases h : i < 8
  · simp [h, hi]
  · have hhigh : y.getLsbD i = false := BitVec.getLsbD_of_ge _ _ (by omega)
    simp [h, hi, hhigh]

def lineLog : List (BitVec 16 × Byte) :=
  [((com1 + comFcr).setWidth 16, 0#8), ((com1 + comLcr).setWidth 16, comLcrDlab),
  ((com1 + comDll).setWidth 16, 12#8),
    ((com1 + comDlm).setWidth 16, 0#8), ((com1 + comLcr).setWidth 16, comLcrWlen8 &&& ~~~comLcrDlab),
    ((com1 + comMcr).setWidth 16, 0#8), ((com1 + comIer).setWidth 16, comIerRdi)]

def Console.afterSerial (s : Console) : Console where
  device := s.device
  clock := s.clock + 10
  outs := s.outs ++ lineLog
  port := s.port
  video := s.video
  cPos := s.cPos
  serialExists := decide (s.device (s.clock + 7) ((com1 + comLsr).setWidth 16) ≠ 0xFF#8)
  shift := s.shift
  mem := s.mem

theorem serialInit_eval (s : Console) : serialInit s = .ret () s.afterSerial true := by
  have hlog : s.outs ++ lineLog = s.outs ++ [((com1 + comFcr).setWidth 16, 0#8)] ++
    [((com1 + comLcr).setWidth 16, comLcrDlab)] ++
      [((com1 + comDll).setWidth 16, 12#8)] ++ [((com1 + comDlm).setWidth 16, 0#8)] ++
      [((com1 + comLcr).setWidth 16, comLcrWlen8 &&& ~~~comLcrDlab)] ++ [((com1 + comMcr).setWidth 16, 0#8)] ++
      [((com1 + comIer).setWidth 16, comIerRdi)] := by simp [lineLog]
  rw [Console.afterSerial, hlog]
  rfl

def Console.afterCursor (s : Console) (port : CInt) : Console where
  device := s.device
  clock := s.clock + 4
  outs := s.outs ++ [(port.setWidth 16, 14#8), (port.setWidth 16, 15#8)]
  port := s.port
  video := s.video
  cPos := s.device (s.clock + 1) ((port + 1#32).setWidth 16) ++ s.device (s.clock + 3) ((port + 1#32).setWidth 16)
  serialExists := s.serialExists
  shift := s.shift
  mem := s.mem

theorem cursorFrom_eval (s : Console) (port : CInt) : cursorFrom port s = .ret () (s.afterCursor port) true := by
  have hlog : s.outs ++ [(port.setWidth 16, 14#8), (port.setWidth 16, 15#8)] =
      s.outs ++ [(port.setWidth 16, 14#8)] ++ [(port.setWidth 16, 15#8)] := by simp
  rw [Console.afterCursor, hlog, ← join_bytes]
  rfl

theorem pointed_found (h : d.found = true) : d.pointed = { d.con with port := cgaPort, video := d.cga } := by
  rw [Display.pointed, Display.port, Display.buffer, if_pos h, if_pos h]

theorem pointed_missing (h : d.found = false) :
    d.pointed = { d.con with port := monochromePort, video := d.mono } := by
  rw [Display.pointed, Display.port, Display.buffer, if_neg (by simp [h]), if_neg (by simp [h])]

/-- The probe restores the cell that it writes. -/
theorem selectBuffer_returns {t : Display} (ht : t = if d.kept then { d with cga := putCell d.cga 0 0xCE70#16 }
    else d) :
    Returns true (selectBuffer (d.cga 1 ++ d.cga 0) (t.cga 1 ++ t.cga 0)) t () { d with con := d.pointed } := by
  by_cases hkept : d.kept = true
  · have hfound : d.found = true := by rw [Display.found, hkept, Bool.true_or]
    rw [if_pos hkept] at ht
    subst ht
    refine returns_ite.mpr
      (Or.inr ⟨not_not.mpr (putCell_read d.cga _),
      returns_bind.mpr ⟨(), d, returns_modify.mpr ?_, returns_modify.mpr ?_⟩⟩)
    · simp only [if_pos hkept, putCell_restore]
    · rw [pointed_found hfound]
  · rw [if_neg hkept] at ht
    subst ht
    by_cases hcell : t.cga 1 ++ t.cga 0 = 0xCE70#16
    · have hfound : t.found = true := by rw [Display.found, decide_eq_true hcell, Bool.or_true]
      refine returns_ite.mpr
        (Or.inr ⟨not_not.mpr hcell, returns_bind.mpr ⟨(), t, returns_modify.mpr ?_, returns_modify.mpr ?_⟩⟩)
      · rw [if_neg hkept]
      · rw [pointed_found hfound]
    · have hfound : t.found = false := by
        rw [Bool.not_eq_true] at hkept
        rw [Display.found, decide_eq_false hcell, Bool.or_false, hkept]
      refine returns_ite.mpr (Or.inl ⟨hcell, returns_modify.mpr ?_⟩)
      rw [pointed_missing hfound]

theorem Display.initCga_returns (d : Display) :
    Returns true Display.initCga d () { d with con := d.pointed.afterCursor d.port } := by
  have hcursor : Returns true (onDisplay (cursorFrom d.port)) { d with con := d.pointed } ()
      { d with con := d.pointed.afterCursor d.port } :=
    returns_zoom.mpr ⟨_, ⟨true, cursorFrom_eval _ _, fun _ => rfl⟩, rfl⟩
  exact returns_bind.mpr ⟨_, d, returns_read.mpr ⟨rfl, rfl⟩,
    returns_bind.mpr ⟨(), _, returns_modify.mpr rfl, returns_bind.mpr ⟨_, _,
    returns_read.mpr ⟨rfl, rfl⟩,
      returns_bind.mpr ⟨(), _, selectBuffer_returns rfl, returns_bind.mpr ⟨_, _, returns_read.mpr ⟨rfl, rfl⟩,
      hcursor⟩⟩⟩⟩⟩

def Display.seen (d : Display) : BitVec 16 := if d.kept then 0xCE70#16 else d.cga 1 ++ d.cga 0

theorem Display.seen_ne (d : Display) : d.seen ≠ 0xCE70#16 ↔ d.found = false := by
  rw [Display.seen, Display.found]
  cases d.kept <;> simp

theorem initCga_pointed (d : Display) :
    Returns true (initCga d.cga d.mono d.seen) d.con () (d.pointed.afterCursor d.port) := by
  have hvideo : (if d.seen ≠ 0xCE70#16 then d.mono else putCell (putCell d.cga 0 0xCE70#16) 0 (d.cga 1 ++ d.cga 0)) =
      d.buffer := by
    rw [putCell_restore, Display.buffer, if_congr d.seen_ne rfl rfl]
    cases d.found <;> rfl
  have hport : (if d.seen ≠ 0xCE70#16 then monochromePort else cgaPort) = d.port := by
    rw [Display.port, if_congr d.seen_ne rfl rfl]
    cases d.found <;> rfl
  have hlog : d.con.outs ++ [(d.port.setWidth 16, 14#8), (d.port.setWidth 16, 15#8)] =
      d.con.outs ++ [(d.port.setWidth 16, 14#8)] ++ [(d.port.setWidth 16, 15#8)] := by simp
  refine ⟨true, ?_, fun _ => rfl⟩
  unfold initCga
  simp only [hvideo, hport]
  rw [Display.pointed, Console.afterCursor, hlog]
  rfl

theorem Display.initCga_iff : Returns st Display.initCga d () d' ↔
    ∃ s, Returns st (Cezos.initCga d.cga d.mono d.seen) d.con () s ∧ d' = { d with con := s } := by
  have hd : Returns st Display.initCga d () { d with con := d.pointed.afterCursor d.port } := by
    obtain ⟨c, hx, hc⟩ := Display.initCga_returns d
    exact ⟨c, hx, fun _ => hc rfl⟩
  have hs : Returns st (Cezos.initCga d.cga d.mono d.seen) d.con () (d.pointed.afterCursor d.port) := by
    obtain ⟨c, hx, hc⟩ := initCga_pointed d
    exact ⟨c, hx, fun _ => hc rfl⟩
  constructor
  · intro h
    exact ⟨_, hs, (h.unique hd).2⟩
  · rintro ⟨s, h, rfl⟩
    rw [(h.unique hs).2]
    exact hd

def Display.started (d : Display) : Console := (d.pointed.afterCursor d.port).afterSerial

theorem returns_consoleInit {text : ConsoleTexts} {noSerial : Word} {depth fuel : ℕ} :
    Returns st (Display.consoleInit text noSerial depth fuel) d () d' ↔
      (d.started.serialExists = true ∧ d' = { d with con := d.started }) ∨
        (d.started.serialExists = false ∧
        ∃ r s, Returns st (consolePrintf text depth fuel noSerial []) d.started r s ∧
          d' = { d with con := s }) := by
  have hcga : ∀ {e : Display} {u : Unit}, Returns st Display.initCga d u e ↔
    e = { d with con := d.pointed.afterCursor d.port } := by
    intro e u
    constructor
    · exact fun h => (h.unique (Display.initCga_returns d)).2
    · rintro rfl
      obtain ⟨c, hx, hc⟩ := Display.initCga_returns d
      exact ⟨c, hx, fun _ => hc rfl⟩
  have hserial : ∀ {e e' : Display} {u : Unit}, Returns st (onDisplay serialInit) e u e' ↔
    e' = { e with con := e.con.afterSerial } := by
    intro e e' u
    rw [onDisplay, returns_zoom]
    constructor
    · rintro ⟨s, hs, rfl⟩
      rw [(hs.unique (returns_ret (serialInit_eval _))).2]
    · rintro rfl
      exact ⟨_, ⟨true, serialInit_eval _, fun _ => rfl⟩, rfl⟩
  have hpure : ∀ {u : Unit} {e e' : Display}, Returns st (pure () : Prog Display Unit) e u e' ↔ u = () ∧
    e' = e := returns_pure
  have hkbd : ∀ {u : Unit} {e e' : Display}, Returns st kbdInit e u e' ↔ u = () ∧ e' = e := returns_pure
  simp only [Display.consoleInit, returns_bind, hcga, hkbd, hserial, returns_read, returns_ite, hpure]
  constructor
  · rintro ⟨_, _, rfl, _, _, ⟨_, rfl⟩, _, _, rfl, _, _, ⟨rfl, rfl⟩, ⟨hno, r, e, hr, _, rfl⟩ | ⟨hyes, _, rfl⟩⟩
    · obtain ⟨s, hs, rfl⟩ := returns_zoom.mp hr
      exact Or.inr ⟨hno, r, s, hs, rfl⟩
    · exact Or.inl ⟨Bool.not_eq_false _ ▸ hyes, rfl⟩
  · rintro (⟨hyes, rfl⟩ | ⟨hno, r, s, hs, rfl⟩)
    · refine ⟨(), _, rfl, (), _, ⟨trivial, rfl⟩, (), _, rfl, _, _, ⟨rfl, rfl⟩, Or.inr ⟨?_, trivial, rfl⟩⟩
      exact Bool.not_eq_false _ ▸ hyes
    · refine ⟨(), _, rfl, (), _, ⟨trivial, rfl⟩, (), _, rfl, _, _, ⟨rfl, rfl⟩,
        Or.inl ⟨hno, r, _, returns_zoom.mpr ⟨s, hs, rfl⟩, ?_⟩⟩
      exact ⟨trivial, rfl⟩

end Cezos
