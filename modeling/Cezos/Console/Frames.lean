import Cezos.Lib.Frames
import Cezos.Console.Readline

namespace Cezos

open Lib

variable {text : ConsoleTexts} {depth fuel : ℕ} {c port : CInt} {b : Byte} {fmt : Word} {ap : List Word}

/-- Neither the devices, nor the decoder's state, nor the strings. -/
def Console.setup (s : Console) : (ℕ → BitVec 16 → Byte) × CInt × Bool × Bytes × Word :=
  (s.device, s.port, s.serialExists, s.mem, s.shift)

theorem frames_inb : Frames Console.setup (inb port) := .of_keeps (keeps_inb fun _ _ => rfl)

theorem frames_outb : Frames Console.setup (outb port b) := .modify fun _ => rfl

theorem frames_serialPutc : Frames Console.setup (serialPutc c) :=
  (Frames.of_keeps (keeps_wait fun _ _ => rfl)).bind (fun _ => frames_outb)

theorem frames_lptPutc : Frames Console.setup (lptPutc c) :=
  (Frames.of_keeps (keeps_wait fun _ _ => rfl)).bind
  (fun _ => frames_outb.bind (fun _ => frames_outb.bind (fun _ => frames_outb)))

theorem frames_setPos {pos : BitVec 16} : Frames Console.setup (Prog.modify (·.setPos pos)) := .modify fun _ => rfl

theorem frames_setCell {k : ℕ} {w : BitVec 16} : Frames Console.setup (setCell k w) :=
  (Frames.check _).bind (fun _ => .modify fun _ => rfl)

theorem frames_cgaScroll : Frames Console.setup cgaScroll := by
  refine (Frames.read _).bind (fun pos => .ite ?_ (.pure ()))
  refine (Frames.forUp (fun k => ?_) 0 _).bind (fun _ => ?_)
  · exact (Frames.check _).bind (fun _ => .modify fun _ => rfl)
  · exact (Frames.forUp (fun k => frames_setCell) _ _).bind (fun _ => frames_setPos)

theorem frames_cgaSwitch {putc : CInt → Con Unit} (h : ∀ c, Frames Console.setup (putc c)) :
    Frames Console.setup (cgaSwitch putc c) := by
  refine (Frames.read _).bind (fun pos => .ite ?_ (.ite frames_setPos (.ite frames_setPos (.ite ?_ ?_))))
  · exact .ite (frames_setPos.bind (fun _ => frames_setCell)) (.pure ())
  · exact (h _).bind (fun _ => (h _).bind (fun _ => (h _).bind (fun _ => (h _).bind (fun _ => h _))))
  · exact frames_setCell.bind (fun _ => frames_setPos)

theorem frames_cgaCursor : Frames Console.setup cgaCursor :=
  (Frames.read _).bind
  (fun _ => frames_outb.bind (fun _ => frames_outb.bind (fun _ => frames_outb.bind (fun _ => frames_outb))))

theorem frames_cgaPutc : Frames Console.setup (cgaPutc depth c) := by
  induction depth generalizing c with
  | zero => exact .spin
  | succ depth ih =>
    have hputc : ∀ c, Frames Console.setup (consolePutc depth c) := fun c =>
      frames_serialPutc.bind (fun _ => frames_lptPutc.bind (fun _ => ih))
    exact (frames_cgaSwitch hputc).bind (fun _ => frames_cgaScroll.bind (fun _ => frames_cgaCursor))

theorem frames_cputchar : Frames Console.setup (cputchar depth c) :=
  frames_serialPutc.bind (fun _ => frames_lptPutc.bind (fun _ => frames_cgaPutc))

theorem vcprintf_memory {st : Bool} {κ : Type} {putchar : CInt → Prog κ Unit} {ro : Rodata} {r : CInt}
    {s s' : Bytes × κ}
    (h : Returns st (vcprintf putchar ro fuel fmt ap) s r s') : s'.1 = s.1 := by
  have hrefines : Host.Refines (fun t u : (Bytes × κ) × CInt => t = u ∧ t.1.1 = s.1) (printHost putchar)
    (printHost putchar) := by
    refine ⟨fun hR hp => hR.1 ▸ hp, fun ch => ?_⟩
    rintro strict t _ u t' ⟨rfl, hm⟩ hr
    obtain ⟨k, _, rfl⟩ := returns_printPutch.mp hr
    exact ⟨_, hr, rfl, hm⟩
  obtain ⟨_, _, _, hm⟩ := hrefines.vprintfmt (Nat.le_refl fuel) fmt ap _ _ _ _ _ ⟨rfl, rfl⟩ (returns_vcprintf.mp h)
  exact hm

theorem frames_consolePrintf : Frames Console.setup (consolePrintf text depth fuel fmt ap) := by
  intro st s r s' hr
  obtain ⟨k, hk, rfl⟩ := returns_zoom.mp hr
  obtain ⟨_, out, _, htrace⟩ := vcprintf_trace (returns_cprintf.mp hk)
  have hkeep : k.2.setup = s.setup :=
    htrace.invariant (I := fun d => d.setup = s.setup)
      (fun d c d' _ hd hput => (frames_cputchar _ _ _ _ hput).trans hd) rfl
  have hmem : k.1 = s.mem := vcprintf_memory (returns_cprintf.mp hk)
  rw [Console.setup, Console.setup] at hkeep
  simp only [Prod.mk.injEq] at hkeep
  rw [Console.setup, Console.setup, hkeep.1, hkeep.2.1, hkeep.2.2.1, hkeep.2.2.2.2, hmem]

def Console.wiring (s : Console) : (ℕ → BitVec 16 → Byte) × CInt × Bool × Bytes :=
  (s.device, s.port, s.serialExists, s.mem)

theorem wired {α : Type} {x : Con α} (h : Frames Console.setup x) : Frames Console.wiring x := by
  apply h.mono
  intro s s' hs
  simp only [Console.setup, Prod.mk.injEq] at hs
  rw [Console.wiring, Console.wiring, hs.1, hs.2.1, hs.2.2.1, hs.2.2.2.1]

theorem frames_setShift {shift : Word} : Frames Console.wiring (setShift shift) := .modify fun _ => rfl

theorem frames_kbdPressed {data : Byte} : Frames Console.wiring (kbdPressed text depth fuel data) := by
  refine (Frames.read _).bind (fun old => frames_setShift.bind (fun _ => .ite ?_ (.pure _)))
  exact (wired frames_consolePrintf).bind (fun _ => (wired frames_outb).bind (fun _ => .pure _))

theorem frames_kbdProcData : Frames Console.wiring (kbdProcData text depth fuel) := by
  refine (wired frames_inb).bind (fun stat => .ite (.pure _) (.ite (.pure _) ?_))
  refine (wired frames_inb).bind
    (fun data => (Frames.read _).bind (fun shift => .ite ?_ (.ite ?_ (.ite ?_ frames_kbdPressed))))
  · exact frames_setShift.bind (fun _ => .pure _)
  · exact frames_setShift.bind (fun _ => .pure _)
  · exact frames_setShift.bind (fun _ => frames_kbdPressed)

theorem frames_serialProcData : Frames Console.wiring serialProcData :=
  (wired frames_inb).bind (fun _ => .ite (.pure _) ((wired frames_inb).bind (fun _ => .pure _)))

theorem frames_consoleInterrupt {proc : Con CInt} (h : Frames Console.wiring proc) :
    Frames (fun s : Input => s.con.wiring) (consoleInterrupt fuel proc) := by
  refine .whileSome (fun _ => ?_) fuel ()
  have hproc : Frames (fun s : Input => s.con.wiring) (onConsole proc) := .zoom h (fun _ _ hs => hs)
  refine hproc.bind (fun c => .ite (.pure _) (.ite (.pure _) ?_))
  refine (Frames.check _).bind (fun _ => ?_)
  exact Frames.bind (.modify fun _ => rfl) (fun _ => .pure _)

theorem frames_consoleGetc : Frames (fun s : Input => s.con.wiring) (consoleGetc text depth fuel) := by
  have hserial : Frames (fun s : Input => s.con.wiring) (serialInterrupt fuel) :=
    (Frames.read _).bind (fun _ => .ite (frames_consoleInterrupt frames_serialProcData) (.pure _))
  refine hserial.bind
    (fun _ => (frames_consoleInterrupt frames_kbdProcData).bind (fun _ => (Frames.read _).bind (fun cons => ?_)))
  refine .ite ((Frames.check _).bind (fun _ => ?_)) (.pure _)
  exact Frames.bind (.modify fun _ => rfl) (fun _ => .pure _)

theorem frames_getchar :
    Frames (fun s : LineInput => (s.input.con.wiring, s.buf)) (onInput (getchar text depth fuel)) := by
  have hget : Frames (fun s : Input => s.con.wiring) (getchar text depth fuel) :=
    .whileSome (fun _ => .ite (frames_consoleGetc.bind (fun _ => .pure _)) (.pure _)) fuel 0#32
  refine .zoom hget (fun t s hs => ?_)
  change s.con.wiring = t.input.con.wiring at hs
  change (s.con.wiring, t.buf) = (t.input.con.wiring, t.buf)
  rw [hs]

end Cezos
