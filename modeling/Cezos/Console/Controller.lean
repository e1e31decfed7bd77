import Mathlib.Data.List.DropRight
import Cezos.Console.Modifiers
import Cezos.Console.Overrun
import Cezos.Stdio.Scanner

namespace Cezos

open Lib

/-! ### The calls, for any controller -/

section Hosts

variable {σ : Type} (port : CInt → Prog σ Byte) (onCon : ∀ {α : Type}, Con α → Prog σ α)
    (onInput : ∀ {α : Type}, Prog Input α → Prog σ α)

def kbdByteOn (text : ConsoleTexts) (depth fuel : ℕ) (data : Byte) : Prog σ CInt := do
  let shift ← onCon (Prog.read (·.shift))
  if data = 0xE0#8 then do
    onCon (setShift (shift ||| e0esc))
    return 0#32
  else if data &&& 0x80#8 ≠ 0#8 then do
    let data := if shift &&& e0esc ≠ 0#32 then data else data &&& 0x7F#8
    onCon (setShift (shift &&& ~~~(shiftcode data ||| e0esc)))
    return 0#32
  else if shift &&& e0esc ≠ 0#32 then do
    onCon (setShift (shift &&& ~~~e0esc))
    onCon (kbdPressed text depth fuel (data ||| 0x80#8))
  else onCon (kbdPressed text depth fuel data)

def kbdProcDataOn (text : ConsoleTexts) (depth fuel : ℕ) : Prog σ CInt := do
  let stat ← port kbstatp
  if stat &&& kbsDib = 0#8 then return -1#32
  else if stat &&& kbsTerr ≠ 0#8 then return -1#32
  else do
    let data ← port kbdatap
    kbdByteOn onCon text depth fuel data

def consoleInterruptOn (fuel : ℕ) (proc : Prog σ CInt) : Prog σ Unit :=
  Prog.whileSome (fun _ => do
    let c ← proc
    if c = -1#32 then return none
    else if c = 0#32 then return some ()
    else do
      onInput (Prog.check (fun s => decide (s.cons.wpos.toNat < consbufsize)))
      onInput (Prog.modify (fun s => { s with cons := s.cons.put c }))
      return some ()) fuel ()

end Hosts

theorem kbdProcDataOn_console {text : ConsoleTexts} {depth fuel : ℕ} :
    kbdProcDataOn inb (fun x => x) text depth fuel = kbdProcData text depth fuel := rfl

theorem consoleInterruptOn_input {fuel : ℕ} {proc : Con CInt} :
    consoleInterruptOn (fun x => x) fuel (onConsole proc) = consoleInterrupt fuel proc := rfl

/-! ### A controller with a queue -/

structure QueuedByte where
  byte : Byte
  mouse : Bool

structure Controller where
  input : Input
  queue : List QueuedByte

namespace Controller

/-- The status register: a byte is there, and where the head comes from; the other bits are those of the device. -/
def status (s : Controller) : Byte :=
  let rest := s.input.con.device s.input.con.clock 0x64#16 &&& ~~~(kbsDib ||| kbsTerr)
  match s.queue with
  | [] => rest
  | head :: _ => rest ||| kbsDib ||| (if head.mouse then kbsTerr else 0#8)

def tick (s : Controller) : Controller :=
  { s with input := { s.input with con := { s.input.con with clock := s.input.con.clock + 1 } } }

def onCon {α : Type} (x : Con α) : Prog Controller α :=
  Prog.zoom (·.input.con) (fun s con => { s with input := { s.input with con := con } }) x

def onInput {α : Type} (x : Prog Input α) : Prog Controller α :=
  Prog.zoom (·.input) (fun s input => { s with input := input }) x

def data : Prog Controller Byte := do
  let queue ← Prog.read (·.queue)
  match queue with
  | [] => onCon (inb kbdatap)
  | head :: queue => do
    Prog.modify (fun s => { s.tick with queue := queue })
    return head.byte

def port (p : CInt) : Prog Controller Byte :=
  if p = kbstatp then do
    let stat ← Prog.read status
    Prog.modify tick
    return stat
  else if p = kbdatap then data
  else onCon (inb p)

def keyboardInterrupt (text : ConsoleTexts) (depth fuel : ℕ) : Prog Controller Unit :=
  consoleInterruptOn onInput fuel (kbdProcDataOn port onCon text depth fuel)

end Controller

variable {st : Bool} {text : ConsoleTexts} {depth fuel : ℕ} {s s' : Controller} {c : CInt} {b : QueuedByte}
    {queue : List QueuedByte}
  {shift : Word} {byte : Byte} {bs bs' : List Byte} {d d' : Console}

/-! ### What a byte is for the keyboard -/

def pressed (shift : Word) (data : Byte) : CInt :=
  let shift := (shift ||| shiftcode data) ^^^ togglecode data
  capsLocked shift ((charcode (shift &&& (ctlKey ||| shiftKey)) data).setWidth 32)

def scanned (shift : Word) (data : Byte) : CInt :=
  if data = 0xE0#8 then 0#32
  else if data &&& 0x80#8 ≠ 0#8 then 0#32
  else if shift &&& e0esc ≠ 0#32 then pressed (shift &&& ~~~e0esc) (data ||| 0x80#8)
  else pressed shift data

def decoded : Word → List Byte → List CInt
  | _, [] => []
  | shift, data :: bs =>
      (if scanned shift data = 0#32 then [] else [scanned shift data]) ++ decoded (shiftAfter shift data) bs

theorem decoded_append :
    decoded shift (bs ++ bs') = decoded shift bs ++ decoded (bs.foldl shiftAfter shift) bs' := by
  induction bs generalizing shift with
  | nil => rfl
  | cons data bs ih => rw [List.cons_append, decoded, decoded, ih, List.append_assoc, List.foldl_cons]

def Mute : Word → List Byte → Prop
  | _, [] => True
  | shift, data :: bs => (data = 0xE0#8 ∨ data &&& 0x80#8 ≠ 0#8 ∨
      charcode (shiftAfter shift data &&& (ctlKey ||| shiftKey)) (if shift &&& e0esc ≠ 0#32 then data ||| 0x80#8
        else data) = 0#8) ∧
    Mute (shiftAfter shift data) bs

theorem capsLocked_zero : ∀ (shift : Word) (b : Byte), capsLocked shift (b.setWidth 32) = 0#32 ↔ b = 0#8 := by
  intro shift
  by_cases hc : shift &&& capslock = 0#32
  · simp only [capsLocked, hc, if_true]
    decide +kernel
  · simp only [capsLocked, hc, if_false]
    decide +kernel

theorem scanned_zero : scanned shift byte = 0#32 ↔ byte = 0xE0#8 ∨ byte &&& 0x80#8 ≠ 0#8 ∨
    charcode (shiftAfter shift byte &&& (ctlKey ||| shiftKey)) (if shift &&& e0esc ≠ 0#32 then byte ||| 0x80#8
      else byte) = 0#8 := by
  unfold scanned shiftAfter
  by_cases he0 : byte = 0xE0#8
  · rw [if_pos he0]
    exact iff_of_true rfl (Or.inl he0)
  by_cases hup : byte &&& 0x80#8 ≠ 0#8
  · rw [if_neg he0, if_pos hup]
    exact iff_of_true rfl (Or.inr (Or.inl hup))
  rw [if_neg he0, if_neg hup, if_neg he0, if_neg hup, or_iff_right he0, or_iff_right hup]
  by_cases hesc : shift &&& e0esc ≠ 0#32
  · rw [if_pos hesc, if_pos hesc, if_pos hesc]
    exact capsLocked_zero _ _
  · rw [if_neg hesc, if_neg hesc, if_neg hesc]
    exact capsLocked_zero _ _

theorem decoded_nil : decoded shift bs = [] ↔ Mute shift bs := by
  induction bs generalizing shift with
  | nil => exact iff_of_true rfl trivial
  | cons data bs ih =>
    rw [decoded, Mute, List.append_eq_nil_iff, ih, ← scanned_zero]
    by_cases hz : scanned shift data = 0#32
    · rw [if_pos hz, and_iff_right rfl, and_iff_right hz]
    · rw [if_neg hz]
      exact iff_of_false (fun h => List.cons_ne_nil _ _ h.1) (fun h => hz h.1)

theorem kbdPressed_returns {data : Byte} (h : Returns st (kbdPressed text depth fuel data) d c d') :
    c = pressed d.shift data := by
  obtain ⟨old, d₁, hread, h⟩ := returns_bind.mp h
  obtain ⟨rfl, rfl⟩ := returns_read.mp hread
  obtain ⟨_, d₂, hset, h⟩ := returns_bind.mp h
  rcases returns_ite.mp h with ⟨_, h⟩ | ⟨_, h⟩
  · obtain ⟨_, _, _, h⟩ := returns_bind.mp h
    obtain ⟨_, _, _, h⟩ := returns_bind.mp h
    exact (returns_pure.mp h).1
  · exact (returns_pure.mp h).1

theorem scanned_lt : (scanned shift byte).toNat < 256 := by
  have hzero : (0#32 : CInt).toNat < 256 := by decide
  unfold scanned
  split
  · exact hzero
  · split
    · exact hzero
    · split
      · exact capsLocked_lt _ _
      · exact capsLocked_lt _ _

theorem scanned_ne : scanned shift byte ≠ -1#32 := fun h => by
  have hlt := @scanned_lt shift byte
  rw [h] at hlt
  exact absurd hlt (by decide)

theorem decoded_chars : ∀ c ∈ decoded shift bs, c ≠ 0#32 ∧ c.toNat < 256 := by
  induction bs generalizing shift with
  | nil => exact nofun
  | cons data bs ih =>
    intro c hc
    rcases List.mem_append.mp hc with hc | hc
    · by_cases hz : scanned shift data = 0#32
      · rw [if_pos hz] at hc
        exact absurd hc List.not_mem_nil
      · rw [if_neg hz, List.mem_singleton] at hc
        exact hc ▸ ⟨hz, scanned_lt⟩
    · exact ih c hc

namespace Controller

theorem port_status : port kbstatp s = .ret s.status s.tick true := rfl

theorem port_data (h : s.queue = b :: queue) : port kbdatap s = .ret b.byte { s.tick with queue := queue } true := by
  change data s = _
  rw [data, bind_clean (show Prog.read (·.queue) s = .ret s.queue s true from rfl), h]
  rfl

theorem status_bits : ∀ rest : Byte, rest &&& ~~~(kbsDib ||| kbsTerr) &&& kbsDib = 0#8 ∧ ∀ mouse : Bool,
    (rest &&& ~~~(kbsDib ||| kbsTerr) ||| kbsDib ||| (if mouse then kbsTerr else 0#8)) &&& kbsDib ≠ 0#8 ∧
      ((rest &&& ~~~(kbsDib ||| kbsTerr) ||| kbsDib ||| (if mouse then kbsTerr else 0#8)) &&& kbsTerr = 0#8 ↔
      mouse = false) := by
  decide +kernel

theorem status_nil (h : s.queue = []) : s.status &&& kbsDib = 0#8 := by
  rw [status, h]
  exact (status_bits _).1

theorem status_cons (h : s.queue = b :: queue) : s.status &&& kbsDib ≠ 0#8 ∧
    (s.status &&& kbsTerr = 0#8 ↔ b.mouse = false) := by
  rw [status, h]
  exact (status_bits _).2 b.mouse

theorem proc_nil (h : s.queue = []) : kbdProcDataOn port onCon text depth fuel s = .ret (-1#32) s.tick true := by
  rw [kbdProcDataOn, bind_clean port_status, if_pos (status_nil h)]
  rfl

theorem proc_mouse (h : s.queue = b :: queue) (hb : b.mouse = true) :
    kbdProcDataOn port onCon text depth fuel s = .ret (-1#32) s.tick true := by
  obtain ⟨hfull, hterr⟩ := status_cons h
  rw [kbdProcDataOn, bind_clean port_status, if_neg hfull, if_pos (mt hterr.mp (by rw [hb]; decide))]
  rfl

theorem proc_keyboard (h : s.queue = b :: queue) (hb : b.mouse = false)
    (hr : Returns st (kbdProcDataOn port onCon text depth fuel) s c s') :
    c = scanned s.input.con.shift b.byte ∧ s'.input.con.shift = shiftAfter s.input.con.shift b.byte ∧
      s'.queue = queue ∧
      s'.input.cons = s.input.cons := by
  obtain ⟨hfull, hterr⟩ := status_cons h
  obtain ⟨stat, s₁, hstat, hr⟩ := returns_bind.mp hr
  obtain ⟨rfl, rfl⟩ := hstat.unique (returns_ret port_status)
  rw [if_neg hfull, if_neg (not_not.mpr (hterr.mpr hb))] at hr
  obtain ⟨byte, s₂, hbyte, hr⟩ := returns_bind.mp hr
  obtain ⟨rfl, rfl⟩ := hbyte.unique (returns_ret (port_data (show s.tick.queue = b :: queue from h)))
  obtain ⟨shift, s₃, hread, hr⟩ := returns_bind.mp hr
  obtain ⟨_, hmask, rfl⟩ := returns_zoom.mp hread
  obtain ⟨rfl, rfl⟩ := returns_read.mp hmask
  unfold scanned shiftAfter
  rcases returns_ite.mp hr with ⟨he0, hr⟩ | ⟨he0, hr⟩
  · obtain ⟨_, s₄, hset, hr⟩ := returns_bind.mp hr
    obtain ⟨_, hmask, rfl⟩ := returns_zoom.mp hset
    obtain ⟨rfl, rfl⟩ := returns_pure.mp hr
    rw [if_pos he0, if_pos he0, returns_modify.mp hmask]
    exact ⟨rfl, rfl, rfl, rfl⟩
  rw [if_neg he0, if_neg he0]
  rcases returns_ite.mp hr with ⟨hup, hr⟩ | ⟨hup, hr⟩
  · obtain ⟨_, s₄, hset, hr⟩ := returns_bind.mp hr
    obtain ⟨_, hmask, rfl⟩ := returns_zoom.mp hset
    obtain ⟨rfl, rfl⟩ := returns_pure.mp hr
    rw [if_pos hup, if_pos hup, returns_modify.mp hmask]
    exact ⟨rfl, rfl, rfl, rfl⟩
  rw [if_neg hup, if_neg hup]
  rcases returns_ite.mp hr with ⟨hesc, hr⟩ | ⟨hesc, hr⟩
  · obtain ⟨_, s₄, hset, hr⟩ := returns_bind.mp hr
    obtain ⟨_, hmask, rfl⟩ := returns_zoom.mp hset
    obtain ⟨_, hkey, rfl⟩ := returns_zoom.mp hr
    have hesc : s.input.con.shift &&& e0esc ≠ 0#32 := hesc
    rw [if_pos hesc, if_pos hesc, kbdPressed_returns hkey, kbdPressed_shift hkey, returns_modify.mp hmask]
    exact ⟨rfl, rfl, rfl, rfl⟩
  · obtain ⟨_, hkey, rfl⟩ := returns_zoom.mp hr
    have hesc : ¬ s.input.con.shift &&& e0esc ≠ 0#32 := hesc
    rw [if_neg hesc, if_neg hesc, kbdPressed_returns hkey, kbdPressed_shift hkey]
    exact ⟨rfl, rfl, rfl, rfl⟩

/-! ### One call of `keyboard_interrupt` -/

def fromKeyboard (b : QueuedByte) : Bool := !b.mouse

/-- The bytes of the keyboard before the first byte of the mouse. -/
def ahead (queue : List QueuedByte) : List Byte := (queue.takeWhile fromKeyboard).map (·.byte)

def behind (queue : List QueuedByte) : List QueuedByte := queue.dropWhile fromKeyboard

def keyboardBytes (queue : List QueuedByte) : List Byte := (queue.filter fromKeyboard).map (·.byte)

/-- What calls of `keyboard_interrupt` make of the queue. -/
structure Reads (s s' : Controller) : Prop where
  queue : s'.queue = behind s.queue
  shift : s'.input.con.shift = (ahead s.queue).foldl shiftAfter s.input.con.shift
  cons : s'.input.cons = (decoded s.input.con.shift (ahead s.queue)).foldl Cons.put s.input.cons

theorem Reads.stop (h : s.queue = [] ∨ ∃ b queue, s.queue = b :: queue ∧ b.mouse = true) : Reads s s.tick := by
  have hblocked : behind s.queue = s.queue ∧ ahead s.queue = [] := by
    rcases h with hq | ⟨b, queue, hq, hb⟩
    · rw [hq]
      exact ⟨rfl, rfl⟩
    · have hnot : ¬ fromKeyboard b = true := by rw [fromKeyboard, hb]; decide
      rw [hq, behind, ahead, List.dropWhile_cons_of_neg hnot, List.takeWhile_cons_of_neg hnot]
      exact ⟨rfl, rfl⟩
  refine ⟨hblocked.1.symm, ?_, ?_⟩
  · rw [hblocked.2]
    rfl
  · rw [hblocked.2]
    rfl

theorem Reads.next {s₁ s' : Controller} (hq : s.queue = b :: queue) (hb : b.mouse = false)
    (hqueue : s₁.queue = queue)
    (hshift : s₁.input.con.shift = shiftAfter s.input.con.shift b.byte)
    (hcons : s₁.input.cons =
    (if scanned s.input.con.shift b.byte = 0#32 then [] else [scanned s.input.con.shift b.byte]).foldl Cons.put
      s.input.cons) (h : Reads s₁ s') : Reads s s' := by
  have hkey : fromKeyboard b = true := by rw [fromKeyboard, hb]; rfl
  have hahead : ahead s.queue = b.byte :: ahead s₁.queue := by
    rw [hq, hqueue, ahead, ahead, List.takeWhile_cons_of_pos hkey, List.map_cons]
  refine ⟨?_, ?_, ?_⟩
  · rw [h.queue, hq, hqueue, behind, behind, List.dropWhile_cons_of_pos hkey]
  · rw [h.shift, hahead, List.foldl_cons, hshift]
  · rw [h.cons, hahead, decoded, List.foldl_append, hcons, hshift]

theorem proc_cases (h : Returns st (kbdProcDataOn port onCon text depth fuel) s c s') :
    (c = -1#32 ∧ s' = s.tick ∧ (s.queue = [] ∨ ∃ b queue, s.queue = b :: queue ∧ b.mouse = true)) ∨
      ∃ b queue, s.queue = b :: queue ∧ b.mouse = false ∧ c = scanned s.input.con.shift b.byte ∧
        s'.input.con.shift = shiftAfter s.input.con.shift b.byte ∧ s'.queue = queue ∧
          s'.input.cons = s.input.cons := by
  cases hq : s.queue with
  | nil =>
    obtain ⟨rfl, rfl⟩ := h.unique (returns_ret (proc_nil hq))
    exact Or.inl ⟨rfl, rfl, Or.inl rfl⟩
  | cons b queue =>
    cases hb : b.mouse with
    | true =>
      obtain ⟨rfl, rfl⟩ := h.unique (returns_ret (proc_mouse hq hb))
      exact Or.inl ⟨rfl, rfl, Or.inr ⟨b, queue, rfl, hb⟩⟩
    | false => exact Or.inr ⟨b, queue, rfl, hb, proc_keyboard hq hb h⟩

theorem loop_reads {n : ℕ}
    (h : Returns st (consoleInterruptOn onInput n (kbdProcDataOn port onCon text depth fuel)) s () s') :
    Reads s s' := by
  unfold consoleInterruptOn at h
  induction n generalizing s with
  | zero => exact absurd h returns_spin
  | succ n ih =>
    rcases returns_whileSome_succ.mp h with ⟨hstep, _⟩ | ⟨_, s₁, hstep, hrest⟩
    · obtain ⟨c, s₂, hproc, hk⟩ := returns_bind.mp hstep
      rcases proc_cases hproc with ⟨rfl, rfl, hstop⟩ | ⟨b, queue, _, _, rfl, _⟩
      · rw [if_pos rfl] at hk
        obtain ⟨_, rfl⟩ := returns_pure.mp hk
        exact .stop hstop
      · exfalso
        rw [if_neg scanned_ne] at hk
        rcases returns_ite.mp hk with ⟨_, hk⟩ | ⟨_, hk⟩
        · cases (returns_pure.mp hk).1
        · obtain ⟨_, _, _, hk⟩ := returns_bind.mp hk
          obtain ⟨_, _, _, hk⟩ := returns_bind.mp hk
          cases (returns_pure.mp hk).1
    · obtain ⟨c, s₂, hproc, hk⟩ := returns_bind.mp hstep
      rcases proc_cases hproc with ⟨rfl, _⟩ | ⟨b, queue, hq, hb, rfl, hshift, hqueue, hcons⟩
      · rw [if_pos rfl] at hk
        cases (returns_pure.mp hk).1
      · rw [if_neg scanned_ne] at hk
        rcases returns_ite.mp hk with ⟨hz, hk⟩ | ⟨hz, hk⟩
        · obtain ⟨_, rfl⟩ := returns_pure.mp hk
          refine Reads.next hq hb hqueue hshift ?_ (ih hrest)
          rw [if_pos hz, hcons]
          rfl
        · obtain ⟨_, s₃, hcheck, hk₁⟩ := returns_bind.mp hk
          obtain ⟨i, hroom, hs⟩ := returns_zoom.mp hcheck
          obtain ⟨rfl, _⟩ := returns_check.mp hroom
          obtain rfl : s₃ = s₂ := hs
          obtain ⟨_, s₄, hput, hk₂⟩ := returns_bind.mp hk₁
          obtain ⟨j, hstore, rfl⟩ := returns_zoom.mp hput
          obtain rfl := returns_modify.mp hstore
          obtain ⟨_, rfl⟩ := returns_pure.mp hk₂
          refine Reads.next hq hb ?_ ?_ ?_ (ih hrest)
          · exact hqueue
          · exact hshift
          · rw [if_neg hz, ← hcons]
            rfl

/-! ### Repeated calls -/

def Interrupts (text : ConsoleTexts) (depth fuel : ℕ) (s : Controller) (_ : Unit) (s' : Controller) : Prop :=
  Returns false (keyboardInterrupt text depth fuel) s () s'

theorem behind_behind : behind (behind queue) = behind queue := List.dropWhile_idempotent _ _

theorem ahead_behind : ahead (behind queue) = [] := by
  have hsplit := @List.takeWhile_append_dropWhile _ fromKeyboard (behind queue)
  have hempty : (behind queue).takeWhile fromKeyboard = [] := by
    rw [show (behind queue).dropWhile fromKeyboard = behind queue from behind_behind] at hsplit
    exact List.append_left_eq_self.mp hsplit
  rw [ahead, hempty, List.map_nil]

theorem Reads.trans {s₁ : Controller} (h : Reads s s₁) (h' : Reads s₁ s') : Reads s s' := by
  have hahead : ahead s₁.queue = [] := by rw [h.queue, ahead_behind]
  refine ⟨?_, ?_, ?_⟩
  · rw [h'.queue, h.queue, behind_behind]
  · rw [h'.shift, hahead, ← h.shift]
    rfl
  · rw [h'.cons, hahead, ← h.cons]
    rfl

theorem interrupts_read {es : List Unit} (h : Trace (Interrupts text depth fuel) s es s') (hne : es ≠ []) :
    Reads s s' := by
  induction h with
  | nil s => exact absurd rfl hne
  | cons head tail ih =>
    have hfirst := loop_reads head
    cases tail with
    | nil s => exact hfirst
    | cons head' tail' => exact hfirst.trans (ih (List.cons_ne_nil _ _))

/-! ### The calls return -/

section Ends

variable {mem : Bytes} {fmt : Word} {x : List Byte}

def Prints (mem : Bytes) (d : Console) : Prop := d.mem = mem ∧ d.cPos.toNat < crtSize

theorem onScreen_refines (hd : 2 ≤ depth) : Host.Refines
    (fun (s : Bytes × List CInt) (t : (Bytes × Console) × CInt) => s.1 = mem ∧ t.1.1 = mem ∧
    t.1.2.cPos.toNat < crtSize)
    logHost (printHost (cputchar depth)) where
  peek h hp := (congrFun (h.2.1.trans h.1.symm) _).trans hp
  putch ch := by
    rintro strict s t _ s' ⟨hs, ht, hpos⟩ hr
    obtain rfl := returns_modify.mp hr
    obtain ⟨d, hput, _, hd'⟩ := cputchar_acts (c := ch) hd t.1.2 hpos
    have hloose : Returns strict (cputchar depth ch) t.1.2 () d := by
      cases strict
      · exact hput.loosen
      · exact hput
    exact ⟨_, returns_printPutch.mpr ⟨d, hloose, rfl⟩, hs, ht, hd'⟩

theorem consolePrintf_ends (hd : 2 ≤ depth) (hx : IsCString mem fmt x) (hplain : ∀ b ∈ x, b ≠ 37#8) :
    ∃ fuel₀, ∀ fuel ≥ fuel₀, ∀ d, Prints mem d →
    ∃ r d', Returns false (consolePrintf text depth fuel fmt []) d r d' ∧ Prints mem d' := by
  rw [← List.append_nil x] at hx
  have hend : Emits false text.ro mem (fmt + BitVec.ofNat 32 x.length) [] [] := (emits_stop hx.drop.nil).mpr rfl
  obtain ⟨fuel₀, s, hr, _⟩ := (emits_plain hx hplain).mpr ⟨[], hend, rfl⟩
  refine ⟨fuel₀, fun fuel hfuel d hprints => ?_⟩
  obtain ⟨t, ht, _, hmem, hpos⟩ := (onScreen_refines hd).vprintfmt hfuel fmt [] _ _
    ((mem, d), 0#32) _ _ ⟨rfl, rfl, hprints.2⟩ hr
  refine ⟨t.2, { t.1.2 with mem := t.1.1 }, returns_zoom.mpr ⟨t.1, ?_, rfl⟩, hmem, hpos⟩
  rw [hprints.1]
  exact returns_cprintf.mpr (returns_vcprintf.mpr ht)

def Announces (text : ConsoleTexts) (depth fuel : ℕ) (mem : Bytes) : Prop :=
  ∀ d, Prints mem d → ∃ r d', Returns false (consolePrintf text depth fuel text.rebooting []) d r d' ∧ Prints mem d'

theorem kbdPressed_ends {data : Byte} (ha : Announces text depth fuel mem) (h : Prints mem d) :
    ∃ c d', Returns false (kbdPressed text depth fuel data) d c d' ∧ Prints mem d' := by
  have hrest : ∀ (p : Prop) [Decidable p] (c : CInt) (d : Console), Prints mem d → ∃ d', Returns false (if p then do
      let _ ← consolePrintf text depth fuel text.rebooting []
      outb 0x92#32 0x3#8
      return c
    else return c) d c d' ∧ Prints mem d' := by
    intro p _ c d h
    by_cases hp : p
    · obtain ⟨r, d₁, hr, hd₁⟩ := ha d h
      rw [if_pos hp]
      exact ⟨_, returns_bind.mpr
        ⟨r, d₁, hr, returns_bind.mpr ⟨(), _, returns_modify.mpr rfl, returns_pure.mpr ⟨rfl, rfl⟩⟩⟩, hd₁⟩
    · rw [if_neg hp]
      exact ⟨d, returns_pure.mpr ⟨rfl, rfl⟩, h⟩
  obtain ⟨d', hr, hd'⟩ := hrest (~~~((d.shift ||| shiftcode data) ^^^ togglecode data) &&& (ctlKey ||| altKey) =
    0#32 ∧
    pressed d.shift data =
      keyDel.setWidth 32)
      (pressed d.shift data) { d with shift := (d.shift ||| shiftcode data) ^^^ togglecode data } h
  exact ⟨_, d',
    returns_bind.mpr ⟨d.shift, d, returns_read.mpr ⟨rfl, rfl⟩,
    returns_bind.mpr ⟨(), _, returns_modify.mpr rfl, hr⟩⟩, hd'⟩

theorem kbdByte_ends {data : Byte} (ha : Announces text depth fuel mem) (h : Prints mem s.input.con) :
    ∃ c s', Returns false (kbdByteOn onCon text depth fuel data) s c s' ∧ Prints mem s'.input.con := by
  have hread : Returns false (onCon (Prog.read (·.shift))) s s.input.con.shift s :=
    returns_zoom.mpr ⟨s.input.con, returns_read.mpr ⟨rfl, rfl⟩, rfl⟩
  have hset : ∀ shift, Returns false (onCon (setShift shift)) s
    () { s with input := { s.input with con := { s.input.con with shift } } } :=
    fun shift => returns_zoom.mpr ⟨_, returns_modify.mpr rfl, rfl⟩
  have hkey : ∀ {s : Controller} (data : Byte), Prints mem s.input.con →
    ∃ c s', Returns false (onCon (kbdPressed text depth fuel data)) s c s' ∧
      Prints mem s'.input.con := fun data h => by
    obtain ⟨c, d', hr, hd'⟩ := @kbdPressed_ends _ _ _ _ _ data ha h
    exact ⟨c, _, returns_zoom.mpr ⟨d', hr, rfl⟩, hd'⟩
  suffices htail : ∀ shift, ∃ c s', Returns false (if data = 0xE0#8 then do
      onCon (setShift (shift ||| e0esc))
      return 0#32
    else if data &&& 0x80#8 ≠ 0#8 then do
      onCon (setShift
        (shift &&& ~~~(shiftcode (if shift &&& e0esc ≠ 0#32 then data else data &&& 0x7F#8) ||| e0esc)))
      return 0#32
    else if shift &&& e0esc ≠ 0#32 then do
      onCon (setShift (shift &&& ~~~e0esc))
      onCon (kbdPressed text depth fuel (data ||| 0x80#8))
    else onCon (kbdPressed text depth fuel data)) s c s' ∧ Prints mem s'.input.con by
    obtain ⟨c, s', hr, hs'⟩ := htail s.input.con.shift
    exact ⟨c, s', returns_bind.mpr ⟨_, s, hread, hr⟩, hs'⟩
  intro shift
  by_cases he0 : data = 0xE0#8
  · rw [if_pos he0]
    exact ⟨_, _, returns_bind.mpr ⟨(), _, hset _, returns_pure.mpr ⟨rfl, rfl⟩⟩, h⟩
  rw [if_neg he0]
  by_cases hup : data &&& 0x80#8 ≠ 0#8
  · rw [if_pos hup]
    exact ⟨_, _, returns_bind.mpr ⟨(), _, hset _, returns_pure.mpr ⟨rfl, rfl⟩⟩, h⟩
  rw [if_neg hup]
  by_cases hesc : shift &&& e0esc ≠ 0#32
  · rw [if_pos hesc]
    obtain ⟨c, s', hr, hs'⟩ :=
      @hkey { s with input := { s.input with con := { s.input.con with shift := shift &&& ~~~e0esc } } }
      (data ||| 0x80#8) h
    exact ⟨c, s', returns_bind.mpr ⟨(), _, hset _, hr⟩, hs'⟩
  · rw [if_neg hesc]
    exact hkey data h

theorem proc_ends (ha : Announces text depth fuel mem) (h : Prints mem s.input.con) :
    ∃ c s', Returns false (kbdProcDataOn port onCon text depth fuel) s c s' ∧ Prints mem s'.input.con := by
  cases hq : s.queue with
  | nil => exact ⟨_, _, returns_ret (proc_nil hq), h⟩
  | cons b queue =>
    cases hb : b.mouse with
    | true => exact ⟨_, _, returns_ret (proc_mouse hq hb), h⟩
    | false =>
      obtain ⟨hfull, hterr⟩ := status_cons hq
      have hdata := port_data (show s.tick.queue = b :: queue from hq)
      obtain ⟨c, s', hr, hs'⟩ := @kbdByte_ends text depth fuel { s.tick.tick with queue := queue } mem b.byte ha h
      refine ⟨c, s', returns_bind.mpr ⟨s.status, s.tick, returns_ret port_status, ?_⟩, hs'⟩
      rw [if_neg hfull, if_neg (not_not.mpr (hterr.mpr hb))]
      exact returns_bind.mpr ⟨b.byte, _, returns_ret hdata, hr⟩

theorem loop_ends {n : ℕ} (ha : Announces text depth fuel mem) (h : Prints mem s.input.con)
    (hn : (ahead s.queue).length < n) :
    ∃ s', Returns false (consoleInterruptOn onInput n (kbdProcDataOn port onCon text depth fuel)) s () s' ∧
    Prints mem s'.input.con := by
  induction n generalizing s with
  | zero => exact absurd hn (Nat.not_lt_zero _)
  | succ n ih =>
    obtain ⟨c, s₁, hproc, h₁⟩ := proc_ends ha h
    rcases proc_cases hproc with ⟨rfl, rfl, hstop⟩ | ⟨b, queue, hq, hb, rfl, hshift, hqueue, hcons⟩
    · refine ⟨s.tick, returns_whileSome_succ.mpr (Or.inl ⟨returns_bind.mpr ⟨_, _, hproc, ?_⟩, rfl⟩), h₁⟩
      rw [if_pos rfl]
      exact returns_pure.mpr ⟨rfl, rfl⟩
    · have hkey : fromKeyboard b = true := by rw [fromKeyboard, hb]; rfl
      have hlen : (ahead s₁.queue).length < n := by
        rw [hq, ahead, List.takeWhile_cons_of_pos hkey, List.map_cons, List.length_cons] at hn
        rw [hqueue, ahead]
        omega
      by_cases hz : scanned s.input.con.shift b.byte = 0#32
      · obtain ⟨s', hr, hs'⟩ := ih h₁ hlen
        refine ⟨s', returns_whileSome_succ.mpr (Or.inr ⟨(), s₁, returns_bind.mpr ⟨_, _, hproc, ?_⟩, hr⟩), hs'⟩
        rw [if_neg scanned_ne, if_pos hz]
        exact returns_pure.mpr ⟨rfl, rfl⟩
      · obtain ⟨s', hr, hs'⟩ :=
          @ih { s₁ with input := { s₁.input with cons := s₁.input.cons.put (scanned s.input.con.shift b.byte) } } h₁ hlen
        refine ⟨s', returns_whileSome_succ.mpr (Or.inr ⟨(), _, returns_bind.mpr ⟨_, _, hproc, ?_⟩, hr⟩), hs'⟩
        rw [if_neg scanned_ne, if_neg hz]
        refine returns_bind.mpr ⟨(), s₁, returns_zoom.mpr ⟨s₁.input, returns_check.mpr ⟨rfl, nofun⟩, rfl⟩, ?_⟩
        exact returns_bind.mpr ⟨(), _, returns_zoom.mpr ⟨_, returns_modify.mpr rfl, rfl⟩,
          returns_pure.mpr ⟨rfl, rfl⟩⟩

theorem interrupts_end (ha : Announces text depth fuel mem) (h : Prints mem s.input.con)
    (hn : (ahead s.queue).length < fuel) (n : ℕ) :
    ∃ s', Trace (Interrupts text depth fuel) s (List.replicate n ()) s' := by
  induction n generalizing s with
  | zero => exact ⟨s, .nil s⟩
  | succ n ih =>
    obtain ⟨s₁, hr, h₁⟩ := loop_ends ha h hn
    have hrest : (ahead s₁.queue).length < fuel := by
      rw [(loop_reads hr).queue, ahead_behind, List.length_nil]
      omega
    obtain ⟨s', hrun⟩ := ih h₁ hrest
    exact ⟨s', .cons hr hrun⟩

end Ends

theorem keyboardBytes_split : keyboardBytes queue = ahead queue ++ keyboardBytes (behind queue) := by
  have hahead : (queue.takeWhile fromKeyboard).filter fromKeyboard = queue.takeWhile fromKeyboard :=
    List.filter_eq_self.mpr (List.all_eq_true.mp List.all_takeWhile)
  conv_lhs => rw [keyboardBytes, ← @List.takeWhile_append_dropWhile _ fromKeyboard queue]
  rw [List.filter_append, List.map_append, hahead]
  rfl

theorem ahead_filter : ahead (queue.filter fromKeyboard) = keyboardBytes queue := by
  have hall : (queue.filter fromKeyboard).takeWhile fromKeyboard = queue.filter fromKeyboard :=
    List.takeWhile_eq_self_iff.mpr (fun b hb => (List.mem_filter.mp hb).2)
  rw [ahead, hall]
  rfl

section Runs

variable {x : List Byte} {q : List CInt} {s'' : Controller} {es es' : List Unit}

theorem calls_end (hd : 2 ≤ depth) (hx : IsCString s.input.con.mem text.rebooting x) (hplain : ∀ b ∈ x, b ≠ 37#8)
    (hpos : s.input.con.cPos.toNat < crtSize) :
    ∃ fuel₀, ∀ fuel ≥ fuel₀, ∀ n, ∃ s', Trace (Interrupts text depth fuel) s (List.replicate n ()) s' := by
  obtain ⟨fuel₀, hends⟩ := @consolePrintf_ends text depth _ _ _ hd hx hplain
  refine ⟨max fuel₀ ((ahead s.queue).length + 1), fun fuel hfuel n => ?_⟩
  exact interrupts_end (hends fuel (le_of_max_le_left hfuel)) ⟨rfl, hpos⟩ (le_of_max_le_right hfuel) n

theorem stores_iff (hq : Pending s.input.cons q)
    (hroom : q.length + (decoded s.input.con.shift (keyboardBytes s.queue)).length < consbufsize)
    (hne : es ≠ []) (hne' : es' ≠ [])
    (hrun : Trace (Interrupts text depth fuel) s es s')
    (hrun' : Trace (Interrupts text depth fuel) { s with queue := s.queue.filter fromKeyboard } es' s'') :
    (∃ cs, Pending s'.input.cons (q ++ cs) ∧ Pending s''.input.cons (q ++ cs)) ↔
      Mute ((ahead s.queue).foldl shiftAfter s.input.con.shift) (keyboardBytes (behind s.queue)) := by
  have hmixed := (interrupts_read hrun hne).cons
  have halone := (interrupts_read hrun' hne').cons
  rw [ahead_filter] at halone
  have hroom' := hroom
  rw [keyboardBytes_split, decoded_append, List.length_append] at hroom
  have hp : Pending s'.input.cons (q ++ decoded s.input.con.shift (ahead s.queue)) := by
    rw [hmixed]
    exact hq.puts (by omega) decoded_chars
  have hp' : Pending s''.input.cons (q ++ decoded s.input.con.shift (keyboardBytes s.queue)) := by
    rw [halone]
    exact hq.puts hroom' decoded_chars
  rw [keyboardBytes_split, decoded_append] at hp'
  rw [← decoded_nil]
  constructor
  · rintro ⟨cs, hcs, hcs'⟩
    have heq := (hp.unique hcs).trans (hp'.unique hcs').symm
    rw [← List.append_assoc] at heq
    exact List.append_right_eq_self.mp heq.symm
  · intro hnil
    rw [hnil, List.append_nil] at hp'
    exact ⟨_, hp, hp'⟩

theorem keyboardInterrupt_mouse_iff (hd : 2 ≤ depth) (hx : IsCString s.input.con.mem text.rebooting x)
    (hplain : ∀ b ∈ x, b ≠ 37#8)
    (hpos : s.input.con.cPos.toNat < crtSize) (hq : Pending s.input.cons q)
    (hroom : q.length + (decoded s.input.con.shift (keyboardBytes s.queue)).length < consbufsize) :
    (∃ fuel₀, ∀ fuel ≥ fuel₀, ∀ n, ∃ s', Trace (Interrupts text depth fuel) s (List.replicate n ()) s') ∧
    ∀ fuel es es' s' s'', es ≠ [] → es' ≠ [] → Trace (Interrupts text depth fuel) s es s' →
      Trace (Interrupts text depth fuel) { s with queue := s.queue.filter fromKeyboard } es' s'' →
      ((∃ cs, Pending s'.input.cons (q ++ cs) ∧ Pending s''.input.cons (q ++ cs)) ↔
        Mute ((ahead s.queue).foldl shiftAfter s.input.con.shift) (keyboardBytes (behind s.queue))) :=
  ⟨calls_end hd hx hplain hpos, fun _ _ _ _ _ hne hne' hrun hrun' => stores_iff hq hroom hne hne' hrun hrun'⟩

end Runs

def mixedController (first last : Byte) : Controller where
  input := {
    con := { fullConsole with mem := image [0#8] }
    cons := ⟨fun _ => 0#8, 0#32, 0#32⟩ }
  queue := [⟨first, false⟩, ⟨0x08#8, true⟩, ⟨last, false⟩]

theorem mixedController_ends (first last : Byte) (queue : List QueuedByte) : ∃ fuel₀, ∀ fuel ≥ fuel₀, ∃ s',
    Trace (Interrupts noTexts 2 fuel) { mixedController first last with queue := queue } [()] s' := by
  have hx : IsCString (image [0#8]) noTexts.rebooting [] := ⟨by decide, by decide⟩
  obtain ⟨fuel₀, h⟩ := calls_end (s := { mixedController first last with queue := queue }) (Nat.le_refl 2) hx nofun
    (show fullConsole.cPos.toNat < crtSize by decide)
  exact ⟨fuel₀, fun fuel hfuel => h fuel hfuel 1⟩

theorem mixedController_pending (first last : Byte) : Pending (mixedController first last).input.cons [] :=
  ⟨RingBuffer.holds_nil (show (0#32).toNat < consbufsize by decide) rfl, nofun⟩

theorem keyboardInterrupt_mouse_released :
    ∃ fuel s' s'' cs, Trace (Interrupts noTexts 2 fuel) (mixedController 0x1E#8 0x9E#8) [()] s' ∧
    Trace (Interrupts noTexts 2 fuel)
      { mixedController 0x1E#8 0x9E#8 with queue := [⟨0x1E#8, false⟩, ⟨0x9E#8, false⟩] } [()] s'' ∧
    Pending s'.input.cons cs ∧ Pending s''.input.cons cs := by
  obtain ⟨f, hf⟩ := mixedController_ends 0x1E#8 0x9E#8 (mixedController 0x1E#8 0x9E#8).queue
  obtain ⟨g, hg⟩ := mixedController_ends 0x1E#8 0x9E#8 [⟨0x1E#8, false⟩, ⟨0x9E#8, false⟩]
  obtain ⟨s', hrun⟩ := hf (max f g) (le_max_left f g)
  obtain ⟨s'', hrun'⟩ := hg (max f g) (le_max_right f g)
  have hx : IsCString (image [0#8]) noTexts.rebooting [] := ⟨by decide, by decide⟩
  have hiff := (keyboardInterrupt_mouse_iff (s := mixedController 0x1E#8 0x9E#8) (Nat.le_refl 2) hx nofun
    (show fullConsole.cPos.toNat < crtSize by decide) (mixedController_pending _ _) (by decide +kernel)).2
    (max f g) [()] [()] s' s''
    (List.cons_ne_nil _ _) (List.cons_ne_nil _ _) hrun hrun'
  obtain ⟨cs, hcs⟩ := hiff.mpr ⟨Or.inr (Or.inl (by decide)), trivial⟩
  exact ⟨max f g, s', s'', cs, hrun, hrun', hcs⟩

theorem not_keyboardInterrupt_mouse :
    ¬ ∀ (text : ConsoleTexts) (depth fuel : ℕ) (s s' s'' : Controller) (q : List CInt) (es es' : List Unit),
    Pending s.input.cons q → q.length + (decoded s.input.con.shift (keyboardBytes s.queue)).length <
      consbufsize → es ≠ [] → es' ≠ [] →
    Trace (Interrupts text depth fuel) s es s' →
    Trace (Interrupts text depth fuel) { s with queue := s.queue.filter fromKeyboard } es' s'' →
    ∃ cs, Pending s'.input.cons (q ++ cs) ∧ Pending s''.input.cons (q ++ cs) := by
  intro h
  obtain ⟨f, hf⟩ := mixedController_ends 0x1E#8 0x1F#8 (mixedController 0x1E#8 0x1F#8).queue
  obtain ⟨g, hg⟩ := mixedController_ends 0x1E#8 0x1F#8 [⟨0x1E#8, false⟩, ⟨0x1F#8, false⟩]
  obtain ⟨s', hrun⟩ := hf (max f g) (le_max_left f g)
  obtain ⟨s'', hrun'⟩ := hg (max f g) (le_max_right f g)
  have hroom : ([] : List CInt).length + (decoded (mixedController 0x1E#8 0x1F#8).input.con.shift
    (keyboardBytes (mixedController 0x1E#8 0x1F#8).queue)).length < consbufsize := by decide +kernel
  have hstored := h noTexts 2 (max f g) (mixedController 0x1E#8 0x1F#8) s' s'' [] [()] [()]
    (mixedController_pending _ _) hroom
    (List.cons_ne_nil _ _) (List.cons_ne_nil _ _) hrun hrun'
  obtain ⟨hmute, _⟩ :=
    (stores_iff (s := mixedController 0x1E#8 0x1F#8) (mixedController_pending _ _) hroom (List.cons_ne_nil _ _)
    (List.cons_ne_nil _ _) hrun hrun').mp hstored
  revert hmute
  decide +kernel

end Controller

end Cezos
