import Cezos.Console.Typing
import Cezos.Lib.Preserves

namespace Cezos

open Lib

/-- `console_getc`, for any controller. -/
def consoleGetcOn {σ : Type} (onInput : ∀ {α : Type}, Prog Input α → Prog σ α) (serial keyboard : Prog σ Unit) :
    Prog σ CInt := do
  serial
  keyboard
  let cons ← onInput (Prog.read (·.cons))
  if cons.rpos ≠ cons.wpos then do
    onInput (Prog.check (fun _ => decide (cons.rpos.toNat < consbufsize)))
    onInput (Prog.modify (fun s => { s with cons := s.cons.take }))
    return (cons.buf cons.rpos.toNat).setWidth 32
  else return 0#32

theorem consoleGetcOn_input {text : ConsoleTexts} {depth fuel : ℕ} :
    consoleGetcOn (fun x => x) (serialInterrupt fuel) (keyboardInterrupt text depth fuel) =
      consoleGetc text depth fuel := rfl

namespace Controller

def consoleGetc (text : ConsoleTexts) (depth fuel : ℕ) : Prog Controller CInt :=
  consoleGetcOn onInput (onInput (serialInterrupt fuel)) (keyboardInterrupt text depth fuel)

end Controller

inductive KeyboardCall
  | byte (b : Byte)
  | interrupt
  | getc (r : CInt)

inductive KeyboardStep (text : ConsoleTexts) : Controller → KeyboardCall → Controller → Prop
  | byte {s : Controller} (b : Byte) : KeyboardStep text s (.byte b) { s with queue := s.queue ++ [⟨b, false⟩] }
  | interrupt {s s' : Controller} (depth fuel : ℕ) (hd : 2 ≤ depth)
      (hr : Returns false (Controller.keyboardInterrupt text depth fuel) s () s') : KeyboardStep text s .interrupt s'
  | getc {s s' : Controller} (depth fuel : ℕ) (r : CInt) (hd : 2 ≤ depth)
      (hr : Returns false (Controller.consoleGetc text depth fuel) s r s') : KeyboardStep text s (.getc r) s'

namespace KeyboardCall

def arrived : KeyboardCall → List Byte
  | .byte b => [b]
  | _ => []

def returned : KeyboardCall → List CInt
  | .getc r => if r = 0#32 then [] else [r]
  | _ => []

end KeyboardCall

def delivered (cs : List KeyboardCall) : List Byte := cs.flatMap KeyboardCall.arrived

def taken (cs : List KeyboardCall) : List CInt := cs.flatMap KeyboardCall.returned

variable {st : Bool} {text : ConsoleTexts} {depth fuel : ℕ} {d d' : Console} {s s' : Controller} {c r : CInt}
    {mem : Bytes}
  {cs : List KeyboardCall} {k : Keyboard} {x : List Byte} {call : KeyboardCall} {shift : Word}

/-! ### What a call leaves as it is -/

theorem consolePrintf_preserves (hd : 2 ≤ depth) {fmt : Word} {ap : List Word} :
    Preserves (Controller.Prints mem) (consolePrintf text depth fuel fmt ap) := by
  intro st d r d' hp hr
  have hmem : d'.mem = d.mem := congrArg (·.2.2.2.1) (frames_consolePrintf _ _ _ _ hr)
  refine ⟨hmem.trans hp.1, ?_⟩
  obtain ⟨t, ht, rfl⟩ := returns_zoom.mp hr
  obtain ⟨_, out, _, htrace⟩ := vcprintf_trace (returns_cprintf.mp ht)
  change t.2.cPos.toNat < crtSize
  refine htrace.invariant (I := fun d => d.cPos.toNat < crtSize) (fun d c d' _ hpos hput => ?_) hp.2
  obtain ⟨d₁, hacts, _, hpos'⟩ := cputchar_acts (c := c) hd d hpos
  rwa [(hput.unique hacts).2]

/-- The strings are at their place, the cursor is on the screen, and there is no serial port. -/
def Alone (mem : Bytes) (d : Console) : Prop := Controller.Prints mem d ∧ d.serialExists = false

theorem alone_same (hw : d'.wiring = d.wiring) (hpos : d'.cPos = d.cPos) (ha : Alone mem d) : Alone mem d' := by
  simp only [Console.wiring, Prod.mk.injEq] at hw
  obtain ⟨⟨hmem, hinside⟩, hserial⟩ := ha
  refine ⟨⟨hw.2.2.2.trans hmem, ?_⟩, hw.2.2.1.trans hserial⟩
  rwa [hpos]

theorem kbdPressed_preserves (hd : 2 ≤ depth) {data : Byte} :
    Preserves (Alone mem) (kbdPressed text depth fuel data) := by
  have hset : ∀ shift, Preserves (Alone mem) (setShift shift) :=
    fun shift => .modify (fun d ha => alone_same rfl rfl ha)
  refine (Preserves.read _).bind (fun old => (hset _).bind (fun _ => .ite ?_ (.pure _)))
  refine Preserves.bind ?_ (fun _ => Preserves.bind (.modify (fun d ha => alone_same rfl rfl ha)) (fun _ => .pure _))
  refine (consolePrintf_preserves hd).and (.of_frames frames_consolePrintf (fun d d' h ha => ?_))
  rwa [show d'.serialExists = d.serialExists from congrArg (·.2.2.1) h]

namespace Controller

section Kept

variable {K : Console → Prop} (hsame : ∀ d d', d'.wiring = d.wiring → d'.cPos = d.cPos → K d → K d')

include hsame

theorem port_preserves {p : CInt} : Preserves (fun s : Controller => K s.input.con) (port p) := by
  have htick : Preserves (fun s : Controller => K s.input.con) (Prog.modify tick) :=
    .modify (fun s hs => hsame s.input.con _ rfl rfl hs)
  have hinb : ∀ p, Preserves (fun s : Controller => K s.input.con) (onCon (inb p)) := by
    intro p
    refine .zoom ((Preserves.read _).bind (fun _ => Preserves.bind ?_ (fun _ => .pure _))) (fun _ hs => hs)
      (fun _ _ _ hd => hd)
    exact .modify (fun d hd => hsame d _ rfl rfl hd)
  refine .ite ((Preserves.read _).bind (fun _ => htick.bind (fun _ => .pure _))) (.ite ?_ (hinb _))
  refine (Preserves.read _).bind (fun queue => ?_)
  cases queue with
  | nil => exact hinb _
  | cons head queue => exact Preserves.bind (.modify (fun s hs => hsame s.input.con _ rfl rfl hs)) (fun _ => .pure _)

theorem keyboardInterrupt_preserves (hpressed : ∀ data, Preserves K (kbdPressed text depth fuel data)) :
    Preserves (fun s : Controller => K s.input.con) (keyboardInterrupt text depth fuel) := by
  have honCon : ∀ {α : Type} {x : Con α}, Preserves K x →
    Preserves (fun s : Controller => K s.input.con) (onCon x) :=
    fun h => .zoom h (fun _ hs => hs) (fun _ _ _ hd => hd)
  have hset : ∀ shift, Preserves (fun s : Controller => K s.input.con) (onCon (setShift shift)) :=
    fun shift => honCon (.modify (fun d hd => hsame d _ rfl rfl hd))
  have hkey : ∀ data, Preserves (fun s : Controller => K s.input.con) (onCon (kbdPressed text depth fuel data)) :=
    fun data => honCon (hpressed data)
  have hbyte : ∀ data, Preserves (fun s : Controller => K s.input.con) (kbdByteOn onCon text depth fuel data) := by
    intro data
    refine (honCon (.read _)).bind (fun shift => .ite ?_ (.ite ?_ (.ite ?_ (hkey _))))
    · exact (hset _).bind (fun _ => .pure _)
    · exact (hset _).bind (fun _ => .pure _)
    · exact (hset _).bind (fun _ => hkey _)
  have hproc : Preserves (fun s : Controller => K s.input.con) (kbdProcDataOn port onCon text depth fuel) :=
    (port_preserves hsame).bind (fun _ => .ite (.pure _) (.ite (.pure _) ((port_preserves hsame).bind hbyte)))
  refine .whileSome (fun _ => hproc.bind (fun c => .ite (.pure _) (.ite (.pure _) ?_))) fuel ()
  have honInput : ∀ {x : Prog Input Unit}, Preserves (fun i : Input => K i.con) x →
      Preserves (fun s : Controller => K s.input.con) (onInput x) :=
        fun h => .zoom h (fun _ hs => hs) (fun _ _ _ hi => hi)
  refine (honInput (.check _)).bind (fun _ => Preserves.bind (honInput ?_) (fun _ => .pure _))
  exact .modify (fun _ hs => hs)

end Kept

theorem keyboardInterrupt_alone (hd : 2 ≤ depth) :
    Preserves (fun s : Controller => Alone mem s.input.con) (keyboardInterrupt text depth fuel) :=
  keyboardInterrupt_preserves (fun _ _ => alone_same) (fun _ => kbdPressed_preserves hd)

theorem keyboardInterrupt_wiring {st : Bool} (hr : Returns st (keyboardInterrupt text depth fuel) s () s') :
    s'.input.con.wiring = s.input.con.wiring := by
  have hkeep : Preserves (fun t : Controller => t.input.con.wiring = s.input.con.wiring)
    (keyboardInterrupt text depth fuel) :=
    keyboardInterrupt_preserves (fun d d' hw _ hd => hw.trans hd)
      (fun _ => .of_frames frames_kbdPressed (fun d d' hw hd => hw.trans hd))
  exact hkeep _ _ _ _ rfl hr

theorem serial_skips (hs : s.input.con.serialExists = false) {u : Unit} :
    Returns false (onInput (serialInterrupt fuel)) s u s' ↔ s' = s := by
  have hskip : serialInterrupt fuel s.input = .ret () s.input true := by
    rw [serialInterrupt,
      bind_clean
      (show Prog.read (·.con.serialExists) s.input = .ret s.input.con.serialExists s.input true from rfl), hs]
    rfl
  rw [onInput, returns_zoom]
  constructor
  · rintro ⟨i, hi, rfl⟩
    obtain ⟨_, rfl⟩ := hi.unique (returns_ret hskip)
    rfl
  · rintro rfl
    exact ⟨s'.input, returns_ret hskip, rfl⟩

theorem returns_onInput {α : Type} {y : Prog Input α} {a : α} :
    Returns st (onInput y) s a s' ↔ ∃ i, Returns st y s.input a i ∧ s' = { s with input := i } := returns_zoom

theorem returns_consoleGetc (hs : s.input.con.serialExists = false) :
    Returns false (consoleGetc text depth fuel) s r s' ↔
    ∃ s₁, Returns false (keyboardInterrupt text depth fuel) s () s₁ ∧
      ((s₁.input.cons.rpos ≠ s₁.input.cons.wpos ∧ r = (s₁.input.cons.buf s₁.input.cons.rpos.toNat).setWidth 32 ∧
          s' = { s₁ with input := { s₁.input with cons := s₁.input.cons.take } }) ∨
        (s₁.input.cons.rpos = s₁.input.cons.wpos ∧ r = 0#32 ∧ s' = s₁)) := by
  have hpure : ∀ {x y : CInt} {t t' : Controller}, Returns false (pure x : Prog Controller CInt) t y t' ↔
    y = x ∧ t' = t := returns_pure
  simp only [consoleGetc, consoleGetcOn, returns_bind, serial_skips hs, returns_ite, returns_onInput,
    returns_read, returns_check,
    returns_modify, hpure]
  constructor
  · rintro ⟨_, _, rfl, _, s₁, hkbd, _, _, ⟨_, ⟨rfl, rfl⟩, rfl⟩, hanswer⟩
    rcases hanswer with ⟨hne, _, _, ⟨_, ⟨rfl, _⟩, rfl⟩, _, _, ⟨_, rfl, rfl⟩, rfl, rfl⟩ | ⟨he, rfl, rfl⟩
    · exact ⟨s₁, hkbd, Or.inl ⟨hne, rfl, rfl⟩⟩
    · exact ⟨_, hkbd, Or.inr ⟨not_not.mp he, rfl, rfl⟩⟩
  · rintro ⟨s₁, hkbd, ⟨hne, rfl, rfl⟩ | ⟨he, rfl, rfl⟩⟩
    · refine ⟨(), s, rfl, (), s₁, hkbd, _, s₁, ⟨_, ⟨rfl, rfl⟩, rfl⟩, Or.inl ⟨hne, ?_⟩⟩
      exact ⟨(), s₁, ⟨_, ⟨rfl, by simp⟩, rfl⟩, (), _, ⟨_, rfl, rfl⟩, rfl, rfl⟩
    · exact ⟨(), s, rfl, (), s', hkbd, _, s', ⟨_, ⟨rfl, rfl⟩, rfl⟩, Or.inr ⟨not_not.mpr he, rfl, rfl⟩⟩

theorem drains (hk : ∀ b ∈ s.queue, b.mouse = false) (hr : Returns st (keyboardInterrupt text depth fuel) s () s') :
    s'.queue = [] ∧ s'.input.con.shift = (s.queue.map (·.byte)).foldl shiftAfter s.input.con.shift ∧
      s'.input.cons = (decoded s.input.con.shift (s.queue.map (·.byte))).foldl Cons.put s.input.cons := by
  have hkey : ∀ b ∈ s.queue, fromKeyboard b = true := fun b hb => by
    rw [fromKeyboard, hk b hb]
    rfl
  have hahead : ahead s.queue = s.queue.map (·.byte) := by rw [ahead, List.takeWhile_eq_self_iff.mpr hkey]
  have hbehind : behind s.queue = [] := List.dropWhile_eq_nil_iff.mpr hkey
  have hreads := loop_reads hr
  exact ⟨hreads.queue.trans hbehind, by rw [hreads.shift, hahead], by rw [hreads.cons, hahead]⟩

theorem polled {q : List CInt} (hk : ∀ b ∈ s.queue, b.mouse = false) (ha : Alone mem s.input.con)
    (hq : Pending s.input.cons q)
    (hd : 2 ≤ depth) (hroom : q.length + (decoded s.input.con.shift (s.queue.map (·.byte))).length ≤ 511)
    (hr : Returns st (keyboardInterrupt text depth fuel) s () s') :
    s'.queue = [] ∧ Alone mem s'.input.con ∧
      s'.input.con.shift = (s.queue.map (·.byte)).foldl shiftAfter s.input.con.shift ∧
      Pending s'.input.cons (q ++ decoded s.input.con.shift (s.queue.map (·.byte))) := by
  obtain ⟨hqueue, hshift, hcons⟩ := drains hk hr
  have hsize : consbufsize = 512 := rfl
  refine ⟨hqueue, keyboardInterrupt_alone hd _ _ _ _ ha hr, hshift, ?_⟩
  rw [hcons]
  exact hq.puts (by omega) decoded_chars

theorem taken_first {q : List CInt} (hk : ∀ b ∈ s.queue, b.mouse = false) (ha : Alone mem s.input.con)
    (hq : Pending s.input.cons q)
    (hd : 2 ≤ depth) (hroom : q.length + (decoded s.input.con.shift (s.queue.map (·.byte))).length ≤ 511)
    (hr : Returns false (consoleGetc text depth fuel) s r s') :
    s'.queue = [] ∧ Alone mem s'.input.con ∧
      s'.input.con.shift = (s.queue.map (·.byte)).foldl shiftAfter s.input.con.shift ∧
      (r = 0#32 ↔ q ++ decoded s.input.con.shift (s.queue.map (·.byte)) = []) ∧
      ∃ q', q ++ decoded s.input.con.shift (s.queue.map (·.byte)) = (if r = 0#32 then [] else [r]) ++ q' ∧
      Pending s'.input.cons q' := by
  obtain ⟨s₁, hkbd, hend⟩ := (returns_consoleGetc ha.2).mp hr
  obtain ⟨hqueue, ha', hshift, hpending⟩ := polled hk ha hq hd hroom hkbd
  have hsame : s'.queue = s₁.queue ∧ s'.input.con = s₁.input.con := by
    rcases hend with ⟨_, _, rfl⟩ | ⟨_, _, rfl⟩ <;> exact ⟨rfl, rfl⟩
  rw [hsame.1, hsame.2]
  refine ⟨hqueue, ha', hshift, hpending.answer ?_⟩
  rcases hend with ⟨hne, rfl, rfl⟩ | ⟨he, rfl, rfl⟩
  · exact Or.inl ⟨hne, rfl, rfl⟩
  · exact Or.inr ⟨he, rfl, rfl⟩

theorem consoleGetc_wiring {st : Bool} (hs : s.input.con.serialExists = false)
    (hr : Returns st (consoleGetc text depth fuel) s r s') :
    s'.input.con.wiring = s.input.con.wiring := by
  obtain ⟨s₁, hkbd, hend⟩ := (returns_consoleGetc hs).mp hr.loosen
  have hcon : s'.input.con = s₁.input.con := by rcases hend with ⟨_, _, rfl⟩ | ⟨_, _, rfl⟩ <;> rfl
  rw [hcon]
  exact keyboardInterrupt_wiring hkbd

theorem consoleGetc_ends (ha : Alone mem s.input.con) (hann : Announces text depth fuel mem)
    (hn : s.queue.length < fuel) :
    ∃ r s', Returns false (consoleGetc text depth fuel) s r s' := by
  have hahead : (ahead s.queue).length ≤ s.queue.length := by
    rw [ahead, List.length_map]
    exact (List.takeWhile_sublist _).length_le
  obtain ⟨s₁, hr, _⟩ := loop_ends hann ha.1 (Nat.lt_of_le_of_lt hahead hn)
  by_cases he : s₁.input.cons.rpos = s₁.input.cons.wpos
  · exact ⟨_, _, (returns_consoleGetc ha.2).mpr ⟨s₁, hr, Or.inr ⟨he, rfl, rfl⟩⟩⟩
  · exact ⟨_, _, (returns_consoleGetc ha.2).mpr ⟨s₁, hr, Or.inl ⟨he, rfl, rfl⟩⟩⟩

end Controller

/-! ### Runs -/

/-- What the bytes that came so far type is what was returned, then what waits in the ring, then what is not decoded
yet. -/
structure Keyed (shift : Word) (mem : Bytes) (cs : List KeyboardCall) (s : Controller) : Prop where
  keyboard : ∀ b ∈ s.queue, b.mouse = false
  alone : Alone mem s.input.con
  mask : (s.queue.map (·.byte)).foldl shiftAfter s.input.con.shift = (delivered cs).foldl shiftAfter shift
  text : ∃ q, Pending s.input.cons q ∧
    decoded shift (delivered cs) = taken cs ++ q ++ decoded s.input.con.shift (s.queue.map (·.byte))

theorem delivered_snoc : delivered (cs ++ [call]) = delivered cs ++ call.arrived := by
  rw [delivered, delivered, List.flatMap_append, List.flatMap_singleton]

theorem taken_snoc : taken (cs ++ [call]) = taken cs ++ call.returned := by
  rw [taken, taken, List.flatMap_append, List.flatMap_singleton]

namespace Keyed

theorem byte (h : Keyed shift mem cs s) (b : Byte) :
    Keyed shift mem (cs ++ [.byte b]) { s with queue := s.queue ++ [⟨b, false⟩] } := by
  obtain ⟨q, hq, htext⟩ := h.text
  have harrived : (KeyboardCall.byte b).arrived = [b] := rfl
  have hreturned : (KeyboardCall.byte b).returned = [] := rfl
  refine ⟨fun b' hb' => ?_, h.alone, ?_, q, hq, ?_⟩
  · rcases List.mem_append.mp hb' with hb' | hb'
    · exact h.keyboard b' hb'
    · rw [List.mem_singleton.mp hb']
  · rw [delivered_snoc, harrived, List.map_append, List.foldl_append, List.foldl_append, h.mask]
    rfl
  · rw [delivered_snoc, taken_snoc, harrived, hreturned, List.append_nil, List.map_append, decoded_append,
      decoded_append, h.mask, htext]
    simp only [List.append_assoc]
    rfl

theorem room (h : Keyed shift mem cs s) (hroom : (decoded shift (delivered cs)).length ≤ (taken cs).length + 511) :
    ∃ q, Pending s.input.cons q ∧ q.length + (decoded s.input.con.shift (s.queue.map (·.byte))).length ≤ 511 ∧
      decoded shift (delivered cs) = taken cs ++ (q ++ decoded s.input.con.shift (s.queue.map (·.byte))) := by
  obtain ⟨q, hq, htext⟩ := h.text
  rw [List.append_assoc] at htext
  rw [htext, List.length_append, List.length_append] at hroom
  exact ⟨q, hq, by omega, htext⟩

theorem of_polled {q : List CInt} (hqueue : s.queue = []) (ha : Alone mem s.input.con)
    (hshift : s.input.con.shift = (delivered cs).foldl shiftAfter shift) (hq : Pending s.input.cons q)
    (htext : decoded shift (delivered cs) = taken cs ++ q) : Keyed shift mem cs s := by
  refine ⟨by simp [hqueue], ha, ?_, q, hq, ?_⟩
  · rw [hqueue, hshift]
    rfl
  · rw [hqueue, htext]
    exact (List.append_nil _).symm

theorem getc (h : Keyed shift mem cs s) (hd : 2 ≤ depth)
    (hroom : (decoded shift (delivered cs)).length ≤ (taken cs).length + 511)
    (hr : Returns false (Controller.consoleGetc text depth fuel) s r s') :
    Keyed shift mem (cs ++ [.getc r]) s' ∧ (r = 0#32 ↔ taken cs = decoded shift (delivered cs)) := by
  obtain ⟨q, hq, hfits, htext⟩ := h.room hroom
  obtain ⟨hqueue, ha, hshift, hnone, q', hq', hpending⟩ := Controller.taken_first h.keyboard h.alone hq hd hfits hr
  have harrived : (KeyboardCall.getc r).arrived = [] := rfl
  refine ⟨.of_polled hqueue ha ?_ hpending ?_, ?_⟩
  · rw [hshift, h.mask, delivered_snoc, harrived, List.append_nil]
  · rw [delivered_snoc, taken_snoc, harrived, List.append_nil, htext, hq', List.append_assoc]
    rfl
  · rw [hnone, htext]
    exact List.self_eq_append_right.symm

theorem step (h : Keyed shift mem cs s) (hroom : (decoded shift (delivered cs)).length ≤ (taken cs).length + 511)
    (hc : KeyboardStep text s call s') : Keyed shift mem (cs ++ [call]) s' := by
  cases hc with
  | byte b => exact h.byte b
  | interrupt depth fuel hd hr =>
    obtain ⟨q, hq, hfits, htext⟩ := h.room hroom
    obtain ⟨hqueue, ha, hshift, hpending⟩ := Controller.polled h.keyboard h.alone hq hd hfits hr
    have harrived : KeyboardCall.interrupt.arrived = [] := rfl
    have hreturned : KeyboardCall.interrupt.returned = [] := rfl
    refine .of_polled hqueue ha ?_ hpending ?_
    · rw [hshift, h.mask, delivered_snoc, harrived, List.append_nil]
    · rw [delivered_snoc, taken_snoc, harrived, hreturned, List.append_nil, List.append_nil, htext]
  | getc depth fuel r hd hr => exact (h.getc hd hroom hr).1

theorem run {cs' : List KeyboardCall} (hrun : Trace (KeyboardStep text) s cs' s') (h : Keyed shift mem cs s)
    (hroom : ∀ cs₁ cs₂, cs' = cs₁ ++ cs₂ → (decoded shift (delivered (cs ++ cs₁))).length ≤
    (taken (cs ++ cs₁)).length + 511) :
    Keyed shift mem (cs ++ cs') s' := by
  induction hrun generalizing cs with
  | nil s => rwa [List.append_nil]
  | @cons s s₁ s' call cs' hc _ ih =>
    have hfirst := hroom [] (call :: cs') rfl
    rw [List.append_nil] at hfirst
    have hrest := ih (h.step hfirst hc) (fun cs₁ cs₂ hsplit => ?_)
    · rwa [List.append_assoc, List.singleton_append] at hrest
    · have hall := hroom (call :: cs₁) cs₂ (by rw [hsplit, List.cons_append])
      rwa [List.append_assoc, List.singleton_append]

theorem start (hqueue : s.queue = []) (ha : Alone mem s.input.con) (hq : Pending s.input.cons []) :
    Keyed s.input.con.shift mem [] s := by
  refine ⟨by simp [hqueue], ha, ?_, [], hq, ?_⟩
  · rw [hqueue]
    rfl
  · rw [hqueue]
    rfl

end Keyed

theorem consoleGetc_returns (ha : Alone mem s.input.con) (hd : 2 ≤ depth) (hx : IsCString mem text.rebooting x)
    (hplain : ∀ b ∈ x, b ≠ 37#8) :
    ∃ fuel₀, ∀ fuel ≥ fuel₀, ∃ r s', Returns false (Controller.consoleGetc text depth fuel) s r s' := by
  obtain ⟨fuel₀, hends⟩ := @Controller.consolePrintf_ends text depth _ _ _ hd hx hplain
  refine ⟨max fuel₀ (s.queue.length + 1), fun fuel hfuel => ?_⟩
  exact Controller.consoleGetc_ends ha (hends fuel (le_of_max_le_left hfuel)) (le_of_max_le_right hfuel)

/-- The calls hand out what was typed: never another character, and 0 only when nothing is left. -/
def HandsOut (text : ConsoleTexts) (depth : ℕ) (s : Controller) (got typed : List CInt) : Prop :=
  got <+: typed ∧ (∃ fuel₀, ∀ fuel ≥ fuel₀, ∃ r s', Returns false (Controller.consoleGetc text depth fuel) s r s') ∧
    ∀ fuel r s', Returns false (Controller.consoleGetc text depth fuel) s r s' →
      (r = 0#32 ↔ got = typed) ∧ got ++ (if r = 0#32 then [] else [r]) <+: typed

theorem Keyed.handsOut (h : Keyed shift mem cs s) (hd : 2 ≤ depth) (hx : IsCString mem text.rebooting x)
    (hplain : ∀ b ∈ x, b ≠ 37#8)
    (hroom : (decoded shift (delivered cs)).length ≤ (taken cs).length + 511) :
    HandsOut text depth s (taken cs) (decoded shift (delivered cs)) := by
  obtain ⟨q, _, htext⟩ := h.text
  refine ⟨⟨_, by rw [htext, List.append_assoc]⟩, consoleGetc_returns h.alone hd hx hplain, fun fuel r s' hr => ?_⟩
  obtain ⟨hnext, hnone⟩ := h.getc hd hroom hr
  obtain ⟨q', _, htext'⟩ := hnext.text
  have harrived : (KeyboardCall.getc r).arrived = [] := rfl
  rw [delivered_snoc, taken_snoc, harrived, List.append_nil, List.append_assoc] at htext'
  exact ⟨hnone, _, htext'.symm⟩

section Sessions

variable {es : List KeyEvent} {t : List Byte} {caps : Bool}

theorem consoleGetc_types (hk : Reflects s.input.con.shift k) (hqueue : s.queue = []) (hq : Pending s.input.cons [])
    (hserial : s.input.con.serialExists = false) (hpos : s.input.con.cPos.toNat < crtSize)
    (hx : IsCString s.input.con.mem text.rebooting x) (hplain : ∀ b ∈ x, b ≠ 37#8) (hd : 2 ≤ depth)
    (hrun : Trace (KeyboardStep text) s cs s')
    (hroom : ∀ cs₁ cs₂, cs = cs₁ ++ cs₂ → (decoded s.input.con.shift (delivered cs₁)).length ≤
    (taken cs₁).length + 511)
    (hbytes : delivered cs = es.flatMap KeyEvent.bytes) (hes : KeyStream k.held es)
    (ha : AllReleasedAlone k.held es) :
    HandsOut text depth s' (taken cs) ((k.types es).map (·.setWidth 32)) := by
  have hkeyed := Keyed.run hrun (.start hqueue ⟨⟨rfl, hpos⟩, hserial⟩ hq) hroom
  have hall := hkeyed.handsOut hd hx hplain (hroom cs [] (List.append_nil _).symm)
  rwa [List.nil_append, hbytes, (Reflects.decoded_types hk hes ha).1] at hall

theorem consoleGetc_text (hk : Reflects s.input.con.shift (idle caps)) (hqueue : s.queue = [])
    (hq : Pending s.input.cons [])
    (hserial : s.input.con.serialExists = false) (hpos : s.input.con.cPos.toNat < crtSize)
    (hx : IsCString s.input.con.mem text.rebooting x) (hplain : ∀ b ∈ x, b ≠ 37#8) (hd : 2 ≤ depth)
    (hrun : Trace (KeyboardStep text) s cs s')
    (hroom : ∀ cs₁ cs₂, cs = cs₁ ++ cs₂ → (decoded s.input.con.shift (delivered cs₁)).length ≤
    (taken cs₁).length + 511)
    (ht : ∀ c ∈ t, Typable c) (hbytes : delivered cs = (t.flatMap typing).flatMap KeyEvent.bytes) :
    HandsOut text depth s' (taken cs) (t.map (fun c => (if caps then swapCase c else c).setWidth 32)) := by
  have hkeyed := Keyed.run hrun (.start hqueue ⟨⟨rfl, hpos⟩, hserial⟩ hq) hroom
  have hall := hkeyed.handsOut hd hx hplain (hroom cs [] (List.append_nil _).symm)
  obtain ⟨htext, hes, ha⟩ := text_types ht caps
  rwa [List.nil_append, hbytes, (Reflects.decoded_types hk hes ha).1, htext, List.map_map] at hall

end Sessions

/-! ### Two short sessions -/

theorem HandsOut.next {got : List CInt} (h : HandsOut text depth s [] (c :: got)) :
    ∃ fuel s', Returns false (Controller.consoleGetc text depth fuel) s c s' := by
  obtain ⟨_, ⟨fuel, hret⟩, hall⟩ := h
  obtain ⟨r, s', hr⟩ := hret fuel (Nat.le_refl fuel)
  obtain ⟨hnone, hprefix⟩ := hall fuel r s' hr
  have hne : r ≠ 0#32 := fun h0 => List.cons_ne_nil _ _ (hnone.mp h0).symm
  rw [if_neg hne, List.nil_append, List.cons_prefix_cons] at hprefix
  exact ⟨fuel, s', hprefix.1 ▸ hr⟩

theorem decoded_length (shift : Word) (bs : List Byte) : (decoded shift bs).length ≤ bs.length := by
  induction bs generalizing shift with
  | nil => exact Nat.le_refl 0
  | cons b bs ih =>
    have hrest := ih (shiftAfter shift b)
    rw [decoded, List.length_append, List.length_cons]
    split
    · rw [List.length_nil]
      omega
    · rw [List.length_singleton]
      omega

theorem room_of_short (h : (delivered cs).length ≤ 511) (shift : Word) : ∀ cs₁ cs₂, cs = cs₁ ++ cs₂ →
    (decoded shift (delivered cs₁)).length ≤ (taken cs₁).length + 511 := by
  rintro cs₁ cs₂ rfl
  have hle := decoded_length shift (delivered cs₁)
  rw [delivered, List.flatMap_append, List.length_append] at h
  have hpart : (delivered cs₁).length = (cs₁.flatMap KeyboardCall.arrived).length := rfl
  omega

def idleController : Controller where
  input := {
    con := { fullConsole with mem := image [0#8], serialExists := false }
    cons := ⟨fun _ => 0#8, 0#32, 0#32⟩ }
  queue := []

theorem idleController_reflects : Reflects idleController.input.con.shift (idle false) :=
  ⟨⟨by decide, by decide, by decide, by decide⟩, rfl⟩

theorem idleController_pending : Pending idleController.input.cons [] :=
  ⟨RingBuffer.holds_nil (show (0#32).toNat < consbufsize by decide) rfl, nofun⟩

theorem idleController_text : IsCString idleController.input.con.mem noTexts.rebooting [] := ⟨by decide, by decide⟩

theorem arrive_run (bs : List Byte) : ∃ s', Trace (KeyboardStep text) s (bs.map KeyboardCall.byte) s' := by
  induction bs generalizing s with
  | nil => exact ⟨s, .nil s⟩
  | cons b bs ih =>
    obtain ⟨s', hrun⟩ := @ih { s with queue := s.queue ++ [⟨b, false⟩] }
    exact ⟨s', .cons (.byte b) hrun⟩

theorem consoleGetc_types_small :
    ∃ s' fuel s'', Trace (KeyboardStep noTexts) idleController [.byte 0x1E#8, .byte 0x9E#8] s' ∧
    Returns false (Controller.consoleGetc noTexts 2 fuel) s' (chr 'a') s'' := by
  obtain ⟨s', hrun⟩ := @arrive_run noTexts idleController [0x1E#8, 0x9E#8]
  have hbytes : delivered [.byte 0x1E#8, .byte 0x9E#8] = (stroke ⟨false, 0x1E#8⟩).flatMap KeyEvent.bytes := rfl
  have hout := consoleGetc_types idleController_reflects rfl idleController_pending rfl
    (by decide) idleController_text nofun
    (Nat.le_refl 2) hrun (room_of_short (by decide) _) hbytes (by decide) (by decide)
  obtain ⟨fuel, s'', hr⟩ := hout.next
  exact ⟨s', fuel, s'', hrun, hr⟩

theorem consoleGetc_text_small : ∃ s' fuel s'',
    Trace (KeyboardStep noTexts) idleController [.byte 0x2A#8, .byte 0x1E#8, .byte 0x9E#8, .byte 0xAA#8] s' ∧
      Returns false (Controller.consoleGetc noTexts 2 fuel) s' (chr 'A') s'' := by
  obtain ⟨s', hrun⟩ := @arrive_run noTexts idleController [0x2A#8, 0x1E#8, 0x9E#8, 0xAA#8]
  have hout := consoleGetc_text (t := [key 'A']) idleController_reflects rfl idleController_pending rfl
    (by decide) idleController_text
    nofun (Nat.le_refl 2) hrun (room_of_short (by decide) _) (by decide) (by decide +kernel)
  obtain ⟨fuel, s'', hr⟩ := hout.next
  exact ⟨s', fuel, s'', hrun, hr⟩

end Cezos
