import Cezos.Console.Init

namespace Cezos

open Lib

variable {text : ConsoleTexts} {k : CommandTexts} {depth fuel : ℕ} {buf : Word} {c : CInt} {J K : Console → Prop}

/-- The data ports, the parallel line's strobe, and the port of the reset. -/
def linePorts : List CInt := [com1 + comTx, 0x378#32, 0x37A#32, 0x92#32]

/-- Of the state `J` sees the bytes on the ports, and it bears those of the lines and of the cursor. -/
structure Undisturbed (J : Console → Prop) : Prop where
  same : ∀ s s', s'.outs = s.outs → s'.port = s.port → J s → J s'
  line : ∀ p ∈ linePorts, ∀ b, Preserves J (outb p b)
  cursor : Preserves J cgaCursor

namespace Undisturbed

variable (h : Undisturbed J)

include h

theorem of_quiet {α : Type} {x : Con α} (hx : Frames (fun s => (s.outs, s.port)) x) : Preserves J x := by
  refine .of_frames hx (fun s s' hs => ?_)
  simp only [Prod.mk.injEq] at hs
  exact h.same s s' hs.1 hs.2

theorem serialPutc : Preserves J (Cezos.serialPutc c) :=
  Preserves.bind (h.of_quiet (.of_keeps (keeps_wait fun _ _ => rfl))) (fun _ => h.line _ (by decide) _)

theorem lptPutc : Preserves J (Cezos.lptPutc c) := by
  refine Preserves.bind (h.of_quiet (.of_keeps (keeps_wait fun _ _ => rfl))) (fun _ => ?_)
  refine Preserves.bind (h.line (0x378#32 + 0#32) (by decide) _) (fun _ => ?_)
  exact Preserves.bind (h.line (0x378#32 + 2#32) (by decide) _) (fun _ => h.line (0x378#32 + 2#32) (by decide) _)

theorem setPos {pos : BitVec 16} : Preserves J (Prog.modify (·.setPos pos)) :=
    .modify (fun s hs => h.same s _ rfl rfl hs)

theorem setCell {i : ℕ} {w : BitVec 16} : Preserves J (Cezos.setCell i w) :=
  (Preserves.check _).bind (fun _ => .modify (fun s hs => h.same s _ rfl rfl hs))

theorem cgaScroll : Preserves J Cezos.cgaScroll := by
  refine (Preserves.read _).bind (fun pos => .ite ?_ (.pure ()))
  refine (Preserves.forUp (fun i => ?_) 0 _).bind
    (fun _ => (Preserves.forUp (fun i => h.setCell) _ _).bind (fun _ => h.setPos))
  exact (Preserves.check _).bind (fun _ => .modify (fun s hs => h.same s _ rfl rfl hs))

theorem cgaSwitch {putc : CInt → Con Unit} (hputc : ∀ c, Preserves J (putc c)) :
    Preserves J (Cezos.cgaSwitch putc c) := by
  refine (Preserves.read _).bind (fun pos => .ite ?_ (.ite h.setPos (.ite h.setPos (.ite ?_ ?_))))
  · exact .ite (h.setPos.bind (fun _ => h.setCell)) (.pure ())
  · exact (hputc _).bind
      (fun _ => (hputc _).bind (fun _ => (hputc _).bind (fun _ => (hputc _).bind (fun _ => hputc _))))
  · exact h.setCell.bind (fun _ => h.setPos)

theorem cgaPutc : Preserves J (Cezos.cgaPutc depth c) := by
  induction depth generalizing c with
  | zero => exact .spin
  | succ depth ih =>
    have hputc : ∀ c, Preserves J (consolePutc depth c) := fun c =>
      h.serialPutc.bind (fun _ => h.lptPutc.bind (fun _ => ih))
    exact (h.cgaSwitch hputc).bind (fun _ => h.cgaScroll.bind (fun _ => h.cursor))

theorem cputchar : Preserves J (Cezos.cputchar depth c) :=
    h.serialPutc.bind (fun _ => h.lptPutc.bind (fun _ => h.cgaPutc))

end Undisturbed

/-- Of the state `K` sees the bytes on the ports and the cursor, and printing keeps it. -/
structure Lasting (K : Console → Prop) : Prop where
  same : ∀ s s', s'.outs = s.outs → s'.port = s.port → s'.cPos = s.cPos → K s → K s'
  reset : Preserves K (outb 0x92#32 0x3#8)
  put : ∀ depth c, Preserves K (cputchar depth c)

theorem Undisturbed.lasting (h : Undisturbed J) : Lasting J where
  same s s' houts hport _ := h.same s s' houts hport
  reset := h.line _ (by decide) _
  put _ _ := h.cputchar

namespace Lasting

variable (h : Lasting K)

include h

theorem of_quiet {α : Type} {x : Con α} (hx : Frames (fun s => (s.outs, s.port, s.cPos)) x) : Preserves K x := by
  refine .of_frames hx (fun s s' hs => ?_)
  simp only [Prod.mk.injEq] at hs
  exact h.same s s' hs.1 hs.2.1 hs.2.2

theorem inb {port : CInt} : Preserves K (Cezos.inb port) := h.of_quiet (.of_keeps (keeps_inb fun _ _ => rfl))

theorem setShift {shift : Word} : Preserves K (Cezos.setShift shift) :=
    .modify (fun s hs => h.same s _ rfl rfl rfl hs)

theorem consolePrintf {fmt : Word} {ap : List Word} : Preserves K (Cezos.consolePrintf text depth fuel fmt ap) := by
  intro st s r s' hs hr
  obtain ⟨t, ht, rfl⟩ := returns_zoom.mp hr
  obtain ⟨_, out, _, htrace⟩ := vcprintf_trace (returns_cprintf.mp ht)
  have hprinted : K t.2 := htrace.invariant (fun d c d' _ hd hput => h.put depth c _ _ _ _ hd hput) hs
  exact h.same t.2 _ rfl rfl rfl hprinted

theorem consoleInit {d d' : Display} {noSerial : Word} {st : Bool} (hK : K d.started)
    (hinit : Returns st (Display.consoleInit text noSerial depth fuel) d () d') : K d'.con := by
  rcases returns_consoleInit.mp hinit with ⟨_, rfl⟩ | ⟨_, r, s, hr, rfl⟩
  · exact hK
  · exact h.consolePrintf _ _ _ _ hK hr

theorem serialProcData : Preserves K Cezos.serialProcData :=
  h.inb.bind (fun _ => .ite (.pure _) (h.inb.bind (fun _ => .pure _)))

theorem kbdPressed {data : Byte} : Preserves K (Cezos.kbdPressed text depth fuel data) := by
  refine (Preserves.read _).bind (fun old => h.setShift.bind (fun _ => .ite ?_ (.pure _)))
  exact h.consolePrintf.bind (fun _ => h.reset.bind (fun _ => .pure _))

theorem kbdProcData : Preserves K (Cezos.kbdProcData text depth fuel) := by
  refine h.inb.bind (fun stat => .ite (.pure _) (.ite (.pure _) ?_))
  refine h.inb.bind (fun data => (Preserves.read _).bind (fun shift => .ite ?_ (.ite ?_ (.ite ?_ h.kbdPressed))))
  · exact h.setShift.bind (fun _ => .pure _)
  · exact h.setShift.bind (fun _ => .pure _)
  · exact h.setShift.bind (fun _ => h.kbdPressed)

omit h in
theorem onConsole {α : Type} {x : Con α} (hx : Preserves K x) :
    Preserves (fun s : Input => K s.con) (Cezos.onConsole x) :=
  .zoom hx (fun _ hs => hs) (fun _ _ _ hd => hd)

omit h in
theorem consoleInterrupt {proc : Con CInt} (hproc : Preserves K proc) :
    Preserves (fun s : Input => K s.con) (Cezos.consoleInterrupt fuel proc) := by
  refine .whileSome (fun _ => (onConsole hproc).bind (fun c => .ite (.pure _) (.ite (.pure _) ?_))) fuel ()
  exact (Preserves.check _).bind (fun _ => Preserves.bind (.modify (fun _ hs => hs)) (fun _ => .pure _))

theorem serialInterrupt : Preserves (fun s : Input => K s.con) (Cezos.serialInterrupt fuel) :=
  (Preserves.read _).bind (fun _ => .ite (consoleInterrupt h.serialProcData) (.pure _))

theorem keyboardInterrupt : Preserves (fun s : Input => K s.con) (Cezos.keyboardInterrupt text depth fuel) :=
    consoleInterrupt h.kbdProcData

theorem consoleGetc : Preserves (fun s : Input => K s.con) (Cezos.consoleGetc text depth fuel) := by
  refine h.serialInterrupt.bind
    (fun _ => h.keyboardInterrupt.bind (fun _ => (Preserves.read _).bind (fun cons => .ite ?_ (.pure _))))
  exact (Preserves.check _).bind (fun _ => Preserves.bind (.modify (fun _ hs => hs)) (fun _ => .pure _))

theorem getchar : Preserves (fun s : Input => K s.con) (Cezos.getchar text depth fuel) :=
  .whileSome (fun _ => .ite (h.consoleGetc.bind (fun _ => .pure _)) (.pure _)) fuel 0#32

omit h in
theorem onInput {α : Type} {x : Prog Input α} (hx : Preserves (fun s : Input => K s.con) x) :
    Preserves (fun s : LineInput => K s.input.con) (Cezos.onInput x) :=
      .zoom hx (fun _ hs => hs) (fun _ _ _ hi => hi)

theorem printed {fmt : Word} {ap : List Word} :
    Preserves (fun s : LineInput => K s.input.con)
      (Cezos.onInput (Cezos.onConsole (Cezos.consolePrintf text depth fuel fmt ap))) :=
  onInput (onConsole h.consolePrintf)

theorem echo {echoing : CInt} : Preserves (fun s : LineInput => K s.input.con) (Cezos.echo depth echoing c) :=
  .ite (onInput (onConsole (h.put depth c))) (.pure _)

theorem readline {prompt : Word} :
    Preserves (fun s : LineInput => K s.input.con) (Cezos.readline text depth fuel prompt) := by
  have hset : ∀ i c, Preserves (fun s : LineInput => K s.input.con) (Prog.modify (·.setBuf i c)) :=
    fun i c => .modify (fun _ hs => hs)
  have hturn : ∀ i c, Preserves (fun s : LineInput => K s.input.con)
    (readlineTurn text depth fuel (iscons 0#32) i c) := by
    intro i c
    refine .ite (h.printed.bind (fun _ => .pure _))
      (.ite (h.echo.bind (fun _ => .pure _)) (.ite ?_ (.ite ?_ (.pure _))))
    · exact h.echo.bind (fun _ => (hset _ _).bind (fun _ => .pure _))
    · exact h.echo.bind (fun _ => (hset _ _).bind (fun _ => .pure _))
  refine Preserves.bind (.ite (h.printed.bind (fun _ => .pure _)) (.pure _))
    (fun _ => .whileSome (fun t => ?_) fuel _)
  cases t with
  | again i => exact (onInput h.getchar).bind (fun c => (hturn i c).bind (fun t => .pure _))
  | null => exact .pure _
  | line => exact .pure _

theorem commandPrintf {fmt : Word} {ap : List Word} :
    Preserves (fun s : LineInput => K s.input.con) (Cezos.commandPrintf text depth fuel fmt ap) :=
      h.printed.bind (fun _ => .pure _)

theorem commands : ∀ cmd ∈ Cezos.commands text k depth fuel, Preserves (fun s : LineInput => K s.input.con)
    (cmd.function cmd.acount cmd.args) := by
  intro cmd hcmd
  simp only [Cezos.commands, List.mem_cons, List.not_mem_nil, or_false] at hcmd
  rcases hcmd with rfl | rfl | rfl
  · exact (Preserves.forUp (fun i => h.commandPrintf) 0 3).bind (fun _ => .pure _)
  · refine h.commandPrintf.bind (fun _ => h.commandPrintf.bind (fun _ => h.commandPrintf.bind (fun _ => ?_)))
    exact h.commandPrintf.bind (fun _ => h.commandPrintf.bind (fun _ => h.commandPrintf.bind (fun _ => .pure _)))
  · exact .pure _

theorem runCommand {name : Word} :
    Preserves (fun s : LineInput => K s.input.con) (Cezos.runCommand text k depth fuel buf name) := by
  have hfrom : ∀ cs : List Command,
    (∀ cmd ∈ cs, Preserves (fun s : LineInput => K s.input.con) (cmd.function cmd.acount cmd.args)) →
      ∀ i, Preserves (fun s : LineInput => K s.input.con) (runFrom k fuel buf name i cs) := by
    intro cs
    induction cs with
    | nil => exact fun _ _ => .pure _
    | cons cmd cs ih =>
      intro hall i
      obtain ⟨hcmd, hrest⟩ := List.forall_mem_cons.mp hall
      have hcompare : Preserves (fun s : LineInput => K s.input.con)
        (onMemory buf (Strings.strcmp fuel name (k.nameAt i))) := by
        intro st s r s' hs hr
        obtain ⟨_, _, rfl⟩ := returns_zoom.mp hr
        exact hs
      exact hcompare.bind (fun r => .ite hcmd (ih hrest (i + 1)))
  exact hfrom _ h.commands 0

theorem waitInput : Preserves (fun s : LineInput => K s.input.con) (Cezos.waitInput text k depth fuel buf) := by
  refine (Preserves.forUp (fun _ => h.commandPrintf) 0 3).bind (fun _ => .whileSome (fun _ => ?_) fuel ())
  refine h.readline.bind (fun t => .ite ?_ (.pure _))
  exact h.runCommand.bind (fun _ => .ite (.pure _) (.pure _))

end Lasting

inductive TerminalCall
  | cputchar (c : CInt)
  | cprintf (fmt : Word) (ap : List Word)
  | serialInterrupt
  | keyboardInterrupt
  | consoleGetc
  | readline (prompt : Word)
  | waitInput

def dropping {σ α : Type} (x : Prog σ α) : Prog σ Unit := do
  let _ ← x
  return ()

def TerminalCall.prog (text : ConsoleTexts) (k : CommandTexts) (buf : Word) (depth fuel : ℕ) :
    TerminalCall → Prog LineInput Unit
  | .cputchar c => onInput (onConsole (Cezos.cputchar depth c))
  | .cprintf fmt ap => dropping (onInput (onConsole (consolePrintf text depth fuel fmt ap)))
  | .serialInterrupt => onInput (Cezos.serialInterrupt fuel)
  | .keyboardInterrupt => onInput (Cezos.keyboardInterrupt text depth fuel)
  | .consoleGetc => dropping (onInput (Cezos.consoleGetc text depth fuel))
  | .readline prompt => dropping (Cezos.readline text depth fuel prompt)
  | .waitInput => Cezos.waitInput text k depth fuel buf

def TerminalStep (text : ConsoleTexts) (k : CommandTexts) (buf : Word) (s : LineInput) (c : TerminalCall)
    (s' : LineInput) : Prop :=
  ∃ depth fuel, Returns false (c.prog text k buf depth fuel) s () s'

theorem Lasting.call (h : Lasting K) (c : TerminalCall) :
    Preserves (fun s : LineInput => K s.input.con) (c.prog text k buf depth fuel) := by
  cases c with
  | cputchar c => exact Lasting.onInput (Lasting.onConsole (h.put depth c))
  | cprintf fmt ap => exact h.printed.bind (fun _ => .pure _)
  | serialInterrupt => exact Lasting.onInput h.serialInterrupt
  | keyboardInterrupt => exact Lasting.onInput h.keyboardInterrupt
  | consoleGetc => exact (Lasting.onInput h.consoleGetc).bind (fun _ => .pure _)
  | readline prompt => exact h.readline.bind (fun _ => .pure _)
  | waitInput => exact h.waitInput

theorem Lasting.run {s s' : LineInput} {cs : List TerminalCall} (h : Lasting K)
    (hrun : Trace (TerminalStep text k buf) s cs s')
    (hs : K s.input.con) : K s'.input.con := by
  refine hrun.invariant (I := fun s : LineInput => K s.input.con) (fun s c s' _ hs hr => ?_) hs
  obtain ⟨depth, fuel, hr⟩ := hr
  exact h.call c _ _ _ _ hs hr

theorem Lasting.session {d d' : Display} {noSerial : Word} {st : Bool} {s s' : LineInput}
    {cs : List TerminalCall} (h : Lasting K)
    (hK : K d.started) (hinit : Returns st (Display.consoleInit text noSerial depth fuel) d () d')
    (hs : s.input.con = d'.con)
    (hrun : Trace (TerminalStep text k buf) s cs s') : K s'.input.con :=
  h.run hrun (hs ▸ h.consoleInit hK hinit)

end Cezos
