import Cezos.Console.Ports

namespace Cezos

open Lib

variable {text : ConsoleTexts} {k : CommandTexts} {buf noSerial : Word} {depth fuel : ℕ} {c : CInt} {st : Bool}
  {s s' : Console} {d d' e : Display} {t t' : LineInput} {cs : List TerminalCall} {p : BitVec 16} {b : Byte}

theorem outs_outb {port : CInt} {u : Unit} (h : Returns st (outb port b) s u s') :
    s' = { s with outs := s.outs ++ [(port.setWidth 16, b)], clock := s.clock + 1 } := returns_modify.mp h

theorem Display.port_known (d : Display) : d.port = cgaPort ∨ d.port = monochromePort := by
  rw [Display.port]
  split
  · exact Or.inl rfl
  · exact Or.inr rfl

theorem Display.started_outs (d : Display) :
    d.started.outs = d.con.outs ++ ([(d.port.setWidth 16, 14#8), (d.port.setWidth 16, 15#8)] ++ lineLog) :=
      List.append_assoc _ _ _

/-! ### A machine whose registers are all 0 -/

def bareDisplay : Display where
  con := blankConsole
  cga _ := 0#8
  mono _ := 0#8
  kept := true

def bareSession : LineInput where
  input := { con := bareDisplay.started, cons := ⟨fun _ => 0#8, 0#32, 0#32⟩ }
  buf _ := 0#8

theorem bareDisplay_init : Returns false (Display.consoleInit noTexts 0#32 0 0) bareDisplay ()
    { bareDisplay with con := bareDisplay.started } := returns_consoleInit.mpr (Or.inl ⟨by decide, rfl⟩)

theorem bareSession_run :
    ∃ t, Trace (TerminalStep noTexts commandTexts 0#32) bareSession [.cputchar (chr 'A')] t := by
  have hinside : bareDisplay.started.cPos.toNat < crtSize := by decide
  obtain ⟨s, hr, _⟩ := cputchar_acts (Nat.le_refl 2) bareDisplay.started hinside
  exact ⟨_, .single ⟨2, 0, returns_zoom.mpr ⟨_, returns_zoom.mpr ⟨s, hr.loosen, rfl⟩, rfl⟩⟩⟩

/-! ### The serial chip -/

structure Uart where
  dll : Byte
  dlm : Byte
  ier : Byte
  fcr : Byte
  lcr : Byte
  mcr : Byte
  line : List Byte

namespace Uart

variable {u : Uart}

def latched (u : Uart) : Bool := decide (u.lcr &&& comLcrDlab ≠ 0#8)

/-- The latch puts the divisor at the places of the transmit buffer and of the interrupt register. -/
def write (u : Uart) (p : BitVec 16) (b : Byte) : Uart :=
  if p = serialData then if u.latched then { u with dll := b } else { u with line := u.line ++ [b] }
  else if p = (com1 + comIer).setWidth 16 then if u.latched then { u with dlm := b } else { u with ier := b }
  else if p = (com1 + comFcr).setWidth 16 then { u with fcr := b }
  else if p = (com1 + comLcr).setWidth 16 then { u with lcr := b }
  else if p = (com1 + comMcr).setWidth 16 then { u with mcr := b }
  else u

def registers : List (BitVec 16) :=
  [(com1 + comIer).setWidth 16, (com1 + comFcr).setWidth 16, (com1 + comLcr).setWidth 16,
  (com1 + comMcr).setWidth 16]

/-- 9600 baud, 8 bits, no FIFO, no modem controls, and an interrupt for what is received. -/
structure Programmed (u : Uart) : Prop where
  speed : 115200 / (u.dlm ++ u.dll : BitVec 16).toNat = 9600
  lcr : u.lcr = comLcrWlen8
  fcr : u.fcr = 0#8
  mcr : u.mcr = 0#8
  ier : u.ier = comIerRdi

theorem write_data (h : u.latched = false) : u.write serialData b = { u with line := u.line ++ [b] } := by
  rw [write, if_pos rfl, h, if_neg Bool.false_ne_true]

theorem write_other (hp : p ≠ serialData) (hr : p ∉ registers) : u.write p b = u := by
  simp only [registers, List.mem_cons, List.not_mem_nil, or_false, not_or] at hr
  rw [write, if_neg hp, if_neg hr.1, if_neg hr.2.1, if_neg hr.2.2.1, if_neg hr.2.2.2]

theorem Programmed.unlatched (h : u.Programmed) : u.latched = false := by
  rw [latched, h.lcr]
  decide

theorem write_fcr : u.write ((com1 + comFcr).setWidth 16) b = { u with fcr := b } := by
  rw [write, if_neg (by decide), if_neg (by decide), if_pos rfl]

theorem write_lcr : u.write ((com1 + comLcr).setWidth 16) b = { u with lcr := b } := by
  rw [write, if_neg (by decide), if_neg (by decide), if_neg (by decide), if_pos rfl]

theorem write_mcr : u.write ((com1 + comMcr).setWidth 16) b = { u with mcr := b } := by
  rw [write, if_neg (by decide), if_neg (by decide), if_neg (by decide), if_neg (by decide), if_pos rfl]

theorem write_dll (h : u.latched = true) : u.write ((com1 + comDll).setWidth 16) b = { u with dll := b } := by
  rw [write, if_pos (by decide), if_pos h]

theorem write_dlm (h : u.latched = true) : u.write ((com1 + comDlm).setWidth 16) b = { u with dlm := b } := by
  rw [write, if_neg (by decide), if_pos (by decide), if_pos h]

theorem write_ier (h : u.latched = false) : u.write ((com1 + comIer).setWidth 16) b = { u with ier := b } := by
  rw [write, if_neg (by decide), if_pos (by decide), if_neg (by rw [h]; decide)]

theorem write_lineLog :
    lineLog.foldl (fun u o => u.write o.1 o.2) u = ⟨12#8, 0#8, comIerRdi, 0#8, comLcrWlen8, 0#8, u.line⟩ := by
  simp only [lineLog, List.foldl_cons, List.foldl_nil, write_fcr, write_lcr, write_mcr]
  have hset : comLcrDlab &&& comLcrDlab ≠ 0#8 := by decide
  have hclear : ¬ (comLcrWlen8 &&& ~~~comLcrDlab) &&& comLcrDlab ≠ 0#8 := by decide
  rw [write_dll (decide_eq_true hset), write_dlm (decide_eq_true hset), write_ier (decide_eq_false hclear)]
  rfl

end Uart

namespace Console

def uart (u : Uart) (s : Console) : Uart := s.outs.foldl (fun u o => u.write o.1 o.2) u

theorem uart_append {u : Uart} {outs : List (BitVec 16 × Byte)} (h : s'.outs = s.outs ++ outs) :
    s'.uart u = outs.foldl (fun u o => u.write o.1 o.2) (s.uart u) := by
  rw [uart, h, List.foldl_append, uart]

theorem sent_append {outs : List (BitVec 16 × Byte)} (h : s'.outs = s.outs ++ outs) :
    s'.sent p = s.sent p ++ outs.filterMap (fun o => if o.1 = p then some o.2 else none) := by
  rw [sent, h, List.filterMap_append, sent]

end Console

def usedPorts (base : CInt) : List (BitVec 16) :=
  linePorts.map (·.setWidth 16) ++ [base.setWidth 16, (base + 1#32).setWidth 16]

structure OnPorts (base : CInt) (outs : List (BitVec 16 × Byte)) (s : Console) : Prop where
  port : s.port = base
  writes : ∃ w, s.outs = outs ++ w ∧ ∀ o ∈ w, o.1 ∈ usedPorts base

namespace OnPorts

variable {base : CInt} {outs : List (BitVec 16 × Byte)}

theorem outb {q : CInt} (hq : q.setWidth 16 ∈ usedPorts base) : Preserves (OnPorts base outs) (outb q b) := by
  intro st s _ s' h hr
  obtain ⟨w, hw, hall⟩ := h.writes
  rw [outs_outb hr]
  refine ⟨h.port, w ++ [(q.setWidth 16, b)], ?_, ?_⟩
  · rw [hw, List.append_assoc]
  · intro o ho
    rcases List.mem_append.mp ho with ho | ho
    · exact hall o ho
    · rw [List.mem_singleton.mp ho]
      exact hq

theorem undisturbed : Undisturbed (OnPorts base outs) where
  same s s' houts hport h := ⟨hport.trans h.port, by rw [houts]; exact h.writes⟩
  line q hq b := outb (List.mem_append_left _ (List.mem_map_of_mem hq))
  cursor := by
    refine .read_bind (fun s hs => ?_)
    have hindex : s.port.setWidth 16 ∈ usedPorts base := by simp [usedPorts, hs.port]
    have hvalue : (s.port + 1#32).setWidth 16 ∈ usedPorts base := by simp [usedPorts, hs.port]
    exact (outb hindex).bind (fun _ => (outb hvalue).bind (fun _ => (outb hindex).bind (fun _ => outb hvalue)))

theorem start (hs : s.port = base) : OnPorts base s.outs s := ⟨hs, [], (List.append_nil _).symm, nofun⟩

end OnPorts

theorem usedPorts_apart {base : CInt} (hb : base = cgaPort ∨ base = monochromePort) (hp : p ∈ usedPorts base) :
    p ∉ Uart.registers := by
  simp only [usedPorts, linePorts, List.map_cons, List.map_nil, List.cons_append, List.nil_append,
    List.mem_cons, List.not_mem_nil,
    or_false] at hp
  rcases hb with rfl | rfl <;> rcases hp with rfl | rfl | rfl | rfl | rfl | rfl <;> decide

theorem console_writes (hinit : Returns st (Display.consoleInit text noSerial depth fuel) d () d')
    (ht : t.input.con = d'.con)
    (hrun : Trace (TerminalStep text k buf) t cs t') :
    ∃ w, t'.input.con.outs = d.con.outs ++ ([(d.port.setWidth 16, 14#8), (d.port.setWidth 16, 15#8)] ++ lineLog)
    ++ w ∧
      ∀ o ∈ w, o.1 ∈ usedPorts d.port := by
  have hstart : OnPorts d.port d.started.outs d.started := .start rfl
  have hwrites := OnPorts.undisturbed.lasting.session hstart hinit ht hrun
  rw [d.started_outs] at hwrites
  exact hwrites.writes

theorem console_writes_bare :
    ∃ t w, Trace (TerminalStep noTexts commandTexts 0#32) bareSession [.cputchar (chr 'A')] t ∧
    t.input.con.outs = [(0x3D4#16, 14#8), (0x3D4#16, 15#8)] ++ lineLog ++ w := by
  obtain ⟨t, hrun⟩ := bareSession_run
  obtain ⟨w, hw, _⟩ := console_writes bareDisplay_init rfl hrun
  exact ⟨t, w, hrun, hw⟩

theorem Uart.Programmed.sends {u : Uart} {w : List (BitVec 16 × Byte)} (h : u.Programmed)
    (hw : ∀ o ∈ w, o.1 ∉ Uart.registers) :
    (w.foldl (fun u o => u.write o.1 o.2) u).Programmed ∧ (w.foldl (fun u o => u.write o.1 o.2) u).line =
      u.line ++ w.filterMap (fun o => if o.1 = serialData then some o.2 else none) := by
  induction w generalizing u with
  | nil => exact ⟨h, (List.append_nil _).symm⟩
  | cons o w ih =>
    obtain ⟨ho, hw⟩ := List.forall_mem_cons.mp hw
    rw [List.foldl_cons]
    by_cases hd : o.1 = serialData
    · have hdata : (u.write o.1 o.2).Programmed := by
        rw [hd, Uart.write_data h.unlatched]
        exact ⟨h.speed, h.lcr, h.fcr, h.mcr, h.ier⟩
      have hline : (u.write o.1 o.2).line = u.line ++ [o.2] := by rw [hd, Uart.write_data h.unlatched]
      obtain ⟨hprog, hrest⟩ := ih hdata hw
      refine ⟨hprog, ?_⟩
      rw [hrest, hline, List.filterMap_cons, if_pos hd, List.append_assoc]
      rfl
    · rw [Uart.write_other hd ho, List.filterMap_cons, if_neg hd]
      exact ih h hw

theorem Console.started_uart {u : Uart} :
    d.started.uart u = ⟨12#8, 0#8, comIerRdi, 0#8, comLcrWlen8, 0#8, (d.con.uart u).line⟩ := by
  have hp : d.port.setWidth 16 ≠ serialData ∧ d.port.setWidth 16 ∉ Uart.registers := by
    rcases d.port_known with hp | hp <;> rw [hp] <;> decide
  rw [Console.uart_append d.started_outs, List.foldl_append, List.foldl_cons, List.foldl_cons, List.foldl_nil,
    Uart.write_other hp.1 hp.2, Uart.write_other hp.1 hp.2, Uart.write_lineLog]

theorem serial_stays_programmed {u : Uart}
    (hinit : Returns st (Display.consoleInit text noSerial depth fuel) d () d')
    (ht : t.input.con = d'.con) (hrun : Trace (TerminalStep text k buf) t cs t') : (t'.input.con.uart u).Programmed ∧
      ∃ X, t'.input.con.sent serialData = d.started.sent serialData ++ X ∧
      (t'.input.con.uart u).line = (d.con.uart u).line ++ X := by
  have hstart : OnPorts d.port d.started.outs d.started := .start rfl
  obtain ⟨w, hw, hall⟩ := (OnPorts.undisturbed.lasting.session hstart hinit ht hrun).writes
  have hprog : (d.started.uart u).Programmed := by
    have hspeed : 115200 / (0#8 ++ 12#8 : BitVec 16).toNat = 9600 := by decide
    rw [Console.started_uart]
    exact ⟨hspeed, rfl, rfl, rfl, rfl⟩
  obtain ⟨hstays, hline⟩ := hprog.sends (fun o ho => usedPorts_apart d.port_known (hall o ho))
  rw [Console.uart_append hw]
  refine ⟨hstays, _, Console.sent_append hw, ?_⟩
  rw [hline, Console.started_uart]

theorem serial_stays_programmed_bare :
    ∃ t, Trace (TerminalStep noTexts commandTexts 0#32) bareSession [.cputchar (chr 'A')] t ∧
    (t.input.con.uart ⟨0#8, 0#8, 0#8, 0#8, 0#8, 0#8, []⟩).Programmed := by
  obtain ⟨t, hrun⟩ := bareSession_run
  exact ⟨t, hrun, (serial_stays_programmed bareDisplay_init rfl hrun).1⟩

/-! ### The video card -/

structure Crtc where
  index : Byte
  regs : Byte → Byte

namespace Crtc

def write (base : CInt) (v : Crtc) (p : BitVec 16) (b : Byte) : Crtc :=
  if p = base.setWidth 16 then { v with index := b }
  else if p = (base + 1#32).setWidth 16 then { v with regs := Function.update v.regs v.index b }
  else v

def cursor (v : Crtc) : BitVec 16 := v.regs 14#8 ++ v.regs 15#8

variable {v : Crtc} {base : CInt}

theorem write_index : v.write base (base.setWidth 16) b = { v with index := b } := if_pos rfl

theorem write_value (h : (base + 1#32).setWidth 16 ≠ base.setWidth 16) :
    v.write base ((base + 1#32).setWidth 16) b = { v with regs := Function.update v.regs v.index b } := by
  rw [write, if_neg h, if_pos rfl]

theorem write_other (h : p ≠ base.setWidth 16) (h' : p ≠ (base + 1#32).setWidth 16) : v.write base p b = v := by
  rw [write, if_neg h, if_neg h']

end Crtc

def Console.crtc (base : CInt) (v : Crtc) (s : Console) : Crtc := s.outs.foldl (fun v o => v.write base o.1 o.2) v

theorem Console.crtc_append {base : CInt} {v : Crtc} {outs : List (BitVec 16 × Byte)}
    (h : s'.outs = s.outs ++ outs) :
    s'.crtc base v = outs.foldl (fun v o => v.write base o.1 o.2) (s.crtc base v) := by
  rw [crtc, h, List.foldl_append, crtc]

structure OnCard (base : CInt) (v : Crtc) (regs : Byte → Byte) (s : Console) : Prop where
  known : base = cgaPort ∨ base = monochromePort
  port : s.port = base
  kept : ∀ r, r ≠ 14#8 → r ≠ 15#8 → (s.crtc base v).regs r = regs r

namespace OnCard

variable {base : CInt} {v : Crtc} {regs : Byte → Byte}

theorem of_same (houts : s'.outs = s.outs) (hport : s'.port = s.port) (h : OnCard base v regs s) :
    OnCard base v regs s' := by
  have hcrtc : s'.crtc base v = s.crtc base v := by rw [Console.crtc, houts, Console.crtc]
  exact ⟨h.known, hport.trans h.port, hcrtc ▸ h.kept⟩

theorem base_ne (h : OnCard base v regs s) : (base + 1#32).setWidth 16 ≠ base.setWidth 16 := by
  rcases h.known with rfl | rfl <;> decide

theorem crtc_line (h : OnCard base v regs s) {q : CInt} {u : Unit} (hq : q ∈ linePorts)
    (hr : Returns st (outb q b) s u s') :
    s'.crtc base v = s.crtc base v := by
  have houts : s'.outs = s.outs ++ [(q.setWidth 16, b)] := by rw [outs_outb hr]
  have hne : q.setWidth 16 ≠ base.setWidth 16 ∧ q.setWidth 16 ≠ (base + 1#32).setWidth 16 := by
    simp only [linePorts, List.mem_cons, List.not_mem_nil, or_false] at hq
    rcases h.known with rfl | rfl <;> rcases hq with rfl | rfl | rfl | rfl <;> decide
  rw [Console.crtc_append houts, List.foldl_cons, List.foldl_nil, Crtc.write_other hne.1 hne.2]

theorem line {q : CInt} (hq : q ∈ linePorts) : Preserves (OnCard base v regs) (outb q b) := by
  intro st s u s' h hr
  have hcrtc := h.crtc_line hq hr
  refine ⟨h.known, ?_, hcrtc ▸ h.kept⟩
  rw [outs_outb hr]
  exact h.port

end OnCard

/-- The cursor that the card shows is `c_pos`. -/
structure Synced (base : CInt) (v : Crtc) (regs : Byte → Byte) (s : Console) :
    Prop extends OnCard base v regs s where
  shown : (s.crtc base v).cursor = s.cPos

section Card

variable {base : CInt} {v : Crtc} {regs : Byte → Byte}

theorem cgaCursor_synced (h : OnCard base v regs s) {u : Unit} (hr : Returns st cgaCursor s u s') :
    Synced base v regs s' := by
  have hs : s' = { s with
      outs := s.outs ++ [(base.setWidth 16, 14#8)] ++ [((base + 1#32).setWidth 16, (s.cPos >>> 8).setWidth 8)] ++
        [(base.setWidth 16, 15#8)] ++ [((base + 1#32).setWidth 16, s.cPos.setWidth 8)]
      clock := s.clock + 1 + 1 + 1 + 1 } := by
    rw [← h.port]
    exact (hr.unique (returns_ret rfl)).2
  have hcrtc : s'.crtc base v =
    ⟨15#8, Function.update (Function.update (s.crtc base v).regs 14#8 ((s.cPos >>> 8).setWidth 8)) 15#8
      (s.cPos.setWidth 8)⟩ := by
    rw [hs]
    simp only [Console.crtc, List.foldl_append, List.foldl_cons, List.foldl_nil, Crtc.write_index,
      Crtc.write_value h.base_ne]
  refine ⟨⟨h.known, ?_, fun r hr hr' => ?_⟩, ?_⟩
  · rw [hs]
    exact h.port
  · rw [hcrtc]
    simp only [Function.update_of_ne hr, Function.update_of_ne hr']
    exact h.kept r hr hr'
  · have hpos : s'.cPos = s.cPos := by rw [hs]
    have hne : (14#8 : Byte) ≠ 15#8 := by decide
    simp only [hcrtc, hpos, Crtc.cursor, Function.update_self, Function.update_of_ne hne]
    exact append_halves s.cPos

theorem OnCard.undisturbed : Undisturbed (OnCard base v regs) where
  same _ _ := OnCard.of_same
  line _ hp _ := OnCard.line hp
  cursor _ _ _ _ h hr := (cgaCursor_synced h hr).toOnCard

theorem Synced.put : Preserves (Synced base v regs) (cputchar depth c) := by
  have hon : Undisturbed (OnCard base v regs) := OnCard.undisturbed
  intro st s _ s' h hr
  obtain ⟨_, s₁, hserial, hr⟩ := returns_bind.mp hr
  obtain ⟨_, s₂, hlpt, hr⟩ := returns_bind.mp hr
  have h₂ := hon.lptPutc _ _ _ _ (hon.serialPutc _ _ _ _ h.toOnCard hserial) hlpt
  cases depth with
  | zero => exact absurd hr returns_spin
  | succ depth =>
    obtain ⟨_, s₃, hswitch, hr⟩ := returns_bind.mp hr
    obtain ⟨_, s₄, hscroll, hr⟩ := returns_bind.mp hr
    have hputc : ∀ c, Preserves (OnCard base v regs) (consolePutc depth c) := fun _ => hon.cputchar
    have h₄ := hon.cgaScroll _ _ _ _ (hon.cgaSwitch hputc _ _ _ _ h₂ hswitch) hscroll
    exact cgaCursor_synced h₄ hr

theorem Synced.lasting : Lasting (Synced base v regs) where
  same s s' houts hport hpos h := by
    have hcrtc : s'.crtc base v = s.crtc base v := by rw [Console.crtc, houts, Console.crtc]
    exact ⟨h.toOnCard.of_same houts hport, by rw [hcrtc, hpos, h.shown]⟩
  reset st s _ s' h hr := by
    have hcrtc := h.crtc_line (by decide) hr
    refine ⟨OnCard.line (by decide) _ _ _ _ h.toOnCard hr, ?_⟩
    rw [hcrtc, h.shown, outs_outb hr]
  put _ _ := Synced.put

def Display.Answers (d : Display) (v : Crtc) : Prop :=
  d.con.device (d.con.clock + 1) ((d.port + 1#32).setWidth 16) = (d.con.crtc d.port v).regs 14#8 ∧
    d.con.device (d.con.clock + 3) ((d.port + 1#32).setWidth 16) = (d.con.crtc d.port v).regs 15#8

theorem Display.Answers.pos (h : d.Answers v) :
    (d.pointed.afterCursor d.port).cPos = (d.con.crtc d.port v).cursor := by
  rw [Crtc.cursor, ← h.1, ← h.2]
  rfl

theorem Synced.started (h : d.Answers v) : Synced d.port v (d.con.crtc d.port v).regs d.started := by
  have hknown := d.port_known
  have houts := d.started_outs
  have hline : ∀ v : Crtc, lineLog.foldl (fun v o => v.write d.port o.1 o.2) v = v := by
    intro v
    have hne : ∀ o ∈ lineLog, o.1 ≠ d.port.setWidth 16 ∧ o.1 ≠ (d.port + 1#32).setWidth 16 := by
      simp only [lineLog, List.forall_mem_cons]
      rcases hknown with hp | hp <;> rw [hp]
        <;> simp [com1, comFcr, comLcr, comDll, comDlm, comMcr, comIer, cgaPort, monochromePort]
    simp only [lineLog, List.forall_mem_cons] at hne
    simp only [lineLog, List.foldl_cons, List.foldl_nil, Crtc.write_other, hne, ne_eq, not_false_eq_true]
  have hcrtc : (d.started.crtc d.port v).regs = (d.con.crtc d.port v).regs := by
    rw [Console.crtc_append houts, List.foldl_append, List.foldl_cons, List.foldl_cons, List.foldl_nil,
      Crtc.write_index,
      Crtc.write_index, hline]
  refine ⟨⟨hknown, rfl, fun r _ _ => by rw [hcrtc]⟩, ?_⟩
  rw [Crtc.cursor, hcrtc]
  exact h.pos.symm

theorem cursor_follows (h : d.Answers v) (hinit : Returns st (Display.consoleInit text noSerial depth fuel) d () d')
    (ht : t.input.con = d'.con) (hrun : Trace (TerminalStep text k buf) t cs t') :
    (t'.input.con.crtc d.port v).cursor = t'.input.con.cPos ∧
      ∀ r, r ≠ 14#8 → r ≠ 15#8 → (t'.input.con.crtc d.port v).regs r = (d.con.crtc d.port v).regs r := by
  have hsynced := Synced.lasting.session (Synced.started h) hinit ht hrun
  exact ⟨hsynced.shown, hsynced.kept⟩

def bareCard : Crtc := ⟨0#8, fun _ => 0#8⟩

theorem bareDisplay_answers : bareDisplay.Answers bareCard := ⟨rfl, rfl⟩

theorem cursor_follows_bare :
    ∃ t, Trace (TerminalStep noTexts commandTexts 0#32) bareSession [.cputchar (chr 'A')] t ∧
    (t.input.con.crtc cgaPort bareCard).cursor = t.input.con.cPos := by
  obtain ⟨t, hrun⟩ := bareSession_run
  exact ⟨t, hrun, (cursor_follows bareDisplay_answers bareDisplay_init rfl hrun).1⟩

/-- The card of `e` is the one of `d` as the run to `s` left it: the video memory in use has what `s` shows. -/
structure Display.LeftBy (d : Display) (s : Console) (e : Display) : Prop where
  outs : e.con.outs = s.outs
  kept : e.kept = d.kept
  cga : e.cga = if d.found then s.video else d.cga
  mono : e.mono = if d.found then d.mono else s.video

/-- The probe sees a card only where a write is kept. -/
def Display.Plain (d : Display) : Prop := d.found = true → d.kept = true

theorem Display.LeftBy.found (h : d.LeftBy s e) (hd : d.Plain) : e.found = d.found := by
  by_cases hk : d.kept = true
  · rw [Display.found, Display.found, h.kept, hk, Bool.true_or, Bool.true_or]
  · have hf : ¬ d.found = true := fun hf => hk (hd hf)
    rw [Display.found, h.kept, h.cga, if_neg hf]
    rfl

theorem Display.LeftBy.port (h : d.LeftBy s e) (hd : d.Plain) : e.port = d.port := by
  rw [Display.port, Display.port, h.found hd]

theorem Display.LeftBy.buffer (h : d.LeftBy s e) (hd : d.Plain) : e.buffer = s.video := by
  rw [Display.buffer, h.found hd, h.cga, h.mono]
  split <;> rfl

theorem initCga_resumes (h : d.Answers v) (hd : d.Plain)
    (hinit : Returns st (Display.consoleInit text noSerial depth fuel) d () d')
    (ht : t.input.con = d'.con) (hrun : Trace (TerminalStep text k buf) t cs t') (hleft : d.LeftBy t'.input.con e)
    (he : e.Answers v) :
    ∃ e', Returns true Display.initCga e () e' ∧ e'.con.screen = t'.input.con.screen ∧
    e'.con.port = t'.input.con.port := by
  have hsynced := Synced.lasting.session (Synced.started h) hinit ht hrun
  have hport := hleft.port hd
  have hcrtc : e.con.crtc e.port v = t'.input.con.crtc d.port v := by
    rw [Console.crtc, hleft.outs, hport, Console.crtc]
  have hpos : (e.pointed.afterCursor e.port).cPos = t'.input.con.cPos := by rw [he.pos, hcrtc, hsynced.shown]
  have hbuffer : (e.pointed.afterCursor e.port).video = t'.input.con.video := hleft.buffer hd
  refine ⟨_, e.initCga_returns, ?_, hport.trans hsynced.port.symm⟩
  simp only [Console.screen, hpos]
  have hcell : (e.pointed.afterCursor e.port).cell = t'.input.con.cell := by
    funext i
    rw [Console.cell, hbuffer, Console.cell]
  rw [hcell]

def leftDisplay (s : Console) : Display where
  con := { blankConsole with
    device := fun n _ => if n = 1 then (s.crtc cgaPort bareCard).regs 14#8 else (s.crtc cgaPort bareCard).regs 15#8
    outs := s.outs }
  cga := s.video
  mono _ := 0#8
  kept := true

theorem initCga_resumes_bare :
    ∃ t e, Trace (TerminalStep noTexts commandTexts 0#32) bareSession [.cputchar (chr 'A')] t ∧
    Returns true Display.initCga (leftDisplay t.input.con) () e ∧ e.con.screen = t.input.con.screen := by
  obtain ⟨t, hrun⟩ := bareSession_run
  obtain ⟨e, hr, hscreen, _⟩ := initCga_resumes (e := leftDisplay t.input.con) bareDisplay_answers (fun _ => rfl)
    bareDisplay_init rfl hrun ⟨rfl, rfl, rfl, rfl⟩ ⟨rfl, rfl⟩
  exact ⟨t, e, hrun, hr, hscreen⟩

end Card

end Cezos
