import Cezos.Console.Editor
import Cezos.Strings.Compare

namespace Cezos

open Lib

/-! ### `command.c` -/

/-- Where the strings of `command.c` and the symbols of the linker are; `nameAt i` is `commands[i].name`. -/
structure CommandTexts where
  nameAt : ℕ → Word
  descriptionAt : ℕ → Word
  helpFormat : Word
  symbolsFormat : Word
  startFormat : Word
  entryFormat : Word
  etextFormat : Word
  edataFormat : Word
  endFormat : Word
  start : Word
  entry : Word
  etext : Word
  edata : Word
  endBss : Word
  clr : Word
  prompt : Word

structure Command where
  name : String
  acount : CInt
  args : Word
  function : CInt → Word → Prog LineInput CInt

namespace Command

def ok : CInt := 0#32
def poweroff : CInt := -1#32
def invalid : CInt := -10#32

end Command

/-- What the kernel reads at an address: its constants, and the buffer of `readline` at `buf`. -/
def LineInput.bytes (buf : Word) (s : LineInput) : Bytes := fun p =>
  match s.input.con.mem p with
  | some b => some b
  | none => if (p - buf).toNat < buflen then some (s.buf (p - buf).toNat) else none

section Calls

variable (text : ConsoleTexts) (k : CommandTexts) (depth fuel : ℕ) (buf : Word)

def onMemory {α : Type} (x : Prog Bytes α) : Prog LineInput α := Prog.zoom (LineInput.bytes buf) (fun s _ => s) x

def commandPrintf (fmt : Word) (ap : List Word) : Prog LineInput Unit := do
  let _ ← onInput (onConsole (consolePrintf text depth fuel fmt ap))
  return ()

def displayHelp (_argc : CInt) (_argv : Word) : Prog LineInput CInt := do
  Prog.forUp (fun i => commandPrintf text depth fuel k.helpFormat [k.nameAt i, k.descriptionAt i]) 0 3
  return Command.ok

def displayKernelInfo (_argc : CInt) (_argv : Word) : Prog LineInput CInt := do
  commandPrintf text depth fuel k.symbolsFormat []
  commandPrintf text depth fuel k.startFormat [k.start]
  commandPrintf text depth fuel k.entryFormat [k.entry, k.entry - kernelBaseAddress]
  commandPrintf text depth fuel k.etextFormat [k.etext, k.etext - kernelBaseAddress]
  commandPrintf text depth fuel k.edataFormat [k.edata, k.edata - kernelBaseAddress]
  commandPrintf text depth fuel k.endFormat [k.endBss, k.endBss - kernelBaseAddress]
  return Command.ok

def poweroffMachine (_argc : CInt) (_argv : Word) : Prog LineInput CInt := return Command.poweroff

def commands : List Command :=
  [⟨"help", 0#32, 0#32, displayHelp text k depth fuel⟩,
    ⟨"kerninfo", 0#32, 0#32, displayKernelInfo text k depth fuel⟩,
    ⟨"shutdown", 0#32, 0#32, poweroffMachine⟩]

def runFrom (commandName : Word) : ℕ → List Command → Prog LineInput CInt
  | _, [] => return Command.invalid
  | i, c :: cs => do
    let r ← onMemory buf (Strings.strcmp fuel commandName (k.nameAt i))
    if r = 0#32 then c.function c.acount c.args
    else runFrom commandName (i + 1) cs

def runCommand (commandName : Word) : Prog LineInput CInt :=
  runFrom k fuel buf commandName 0 (commands text k depth fuel)

def clearScreen : Prog LineInput Unit :=
  Prog.forUp (fun _ => commandPrintf text depth fuel text.percentS [k.clr]) 0 3

def waitStep (_ : Unit) : Prog LineInput (Option Unit) := do
  let outputBuffer ← readline text depth fuel k.prompt
  if outputBuffer = .line then do
    let res ← runCommand text k depth fuel buf buf
    if res = Command.poweroff then return none
    else return some ()
  else return some ()

def waitInput : Prog LineInput Unit := do
  clearScreen text k depth fuel
  Prog.whileSome (waitStep text k depth fuel buf) fuel ()

end Calls

variable {text : ConsoleTexts} {k : CommandTexts} {depth fuel : ℕ} {buf p : Word} {s s₁ s' : LineInput}
    {x : List Byte} {r : CInt}
  {c : Command} {cs : List Command} {st : Bool}

/-! ### The search -/

def Alike (x y : List Byte) : Prop := x <+: y ∨ y <+: x

instance : DecidableRel Alike := fun x y => inferInstanceAs (Decidable (x <+: y ∨ y <+: x))

def NamesAt (k : CommandTexts) (mem : Bytes) : ℕ → List String → Prop
  | _, [] => True
  | i, name :: names => IsCString mem (k.nameAt i) (Cezos.text name) ∧ NamesAt k mem (i + 1) names

theorem onMemory_strcmp {q : Word} {y : List Byte} (hx : IsCString (s.bytes buf) p x)
    (hy : IsCString (s.bytes buf) q y)
    (hf : x.length < fuel) : onMemory buf (Strings.strcmp fuel p q) s = .ret (Strings.compared x y) s true := by
  obtain ⟨clean, hr, hclean⟩ := Strings.strcmp_returns hx hy hf
  rw [hclean rfl] at hr
  simp only [onMemory, Prog.zoom, hr]

theorem runFrom_calls {i : ℕ} (hx : IsCString (s.bytes buf) p x)
    (hn : NamesAt k (s.bytes buf) i (cs.map Command.name)) (hf : x.length < fuel) :
    runFrom k fuel buf p i cs s = match cs.find? (fun c => decide (Alike x (Cezos.text c.name))) with
      | some c => c.function c.acount c.args s
      | none => .ret Command.invalid s true := by
  induction cs generalizing i with
  | nil => rfl
  | cons c cs ih =>
    rw [runFrom, bind_clean (onMemory_strcmp hx hn.1 hf), List.find?_cons]
    by_cases hc : Alike x (Cezos.text c.name)
    · rw [if_pos (Strings.compared_eq_zero_iff.mpr hc), decide_eq_true hc]
    · rw [if_neg (mt Strings.compared_eq_zero_iff.mp hc), decide_eq_false hc]
      exact ih hn.2

theorem command_answers (hc : c ∈ commands text k depth fuel) (h : Returns st (c.function c.acount c.args) s r s') :
    r = if c.name = "shutdown" then Command.poweroff else Command.ok := by
  simp only [commands, List.mem_cons, List.not_mem_nil, or_false] at hc
  rcases hc with rfl | rfl | rfl
  · obtain ⟨_, _, _, h⟩ := returns_bind.mp h
    exact (returns_pure.mp h).1
  · obtain ⟨_, _, _, h⟩ := returns_bind.mp h
    obtain ⟨_, _, _, h⟩ := returns_bind.mp h
    obtain ⟨_, _, _, h⟩ := returns_bind.mp h
    obtain ⟨_, _, _, h⟩ := returns_bind.mp h
    obtain ⟨_, _, _, h⟩ := returns_bind.mp h
    obtain ⟨_, _, _, h⟩ := returns_bind.mp h
    exact (returns_pure.mp h).1
  · exact (returns_pure.mp h).1

/-- A command is called for its own name only, and a line that is no name is invalid. -/
structure Dispatches (text : ConsoleTexts) (k : CommandTexts) (depth fuel : ℕ) (buf p : Word) (s : LineInput)
    (x : List Byte) :
    Prop where
  called : ∀ c ∈ commands text k depth fuel, x = Cezos.text c.name →
    runCommand text k depth fuel buf p s = c.function c.acount c.args s
  invalid : (∀ c ∈ commands text k depth fuel, x ≠ Cezos.text c.name) →
    runCommand text k depth fuel buf p s = .ret Command.invalid s true

def commandNames : List String := ["help", "kerninfo", "shutdown"]

def Unmistakable (x : List Byte) : Prop :=
  (∃ name ∈ commandNames, x = Cezos.text name) ∨ ∀ name ∈ commandNames, ¬ Alike x (Cezos.text name)

theorem mem_commands (hc : c ∈ commands text k depth fuel) : c.name ∈ commandNames :=
  List.mem_map_of_mem (f := Command.name) hc

theorem exists_command {name : String} (h : name ∈ commandNames) : ∃ c ∈ commands text k depth fuel, c.name = name :=
  List.mem_map.mp h

theorem alike_head {y : List Byte} (h : Alike x y) (hx : x ≠ []) (hy : y ≠ []) : x.head? = y.head? := by
  rcases h with ⟨z, rfl⟩ | ⟨z, rfl⟩
  · rw [List.head?_append, List.head?_eq_some_head hx, Option.some_or]
  · rw [List.head?_append, List.head?_eq_some_head hy, Option.some_or]

theorem names_head : ∀ name ∈ commandNames, Cezos.text name ≠ [] ∧
    ∀ name' ∈ commandNames, (Cezos.text name).head? = (Cezos.text name').head? → name = name' := by
  decide +kernel

theorem alike_names {name name' : String} (hx : x ≠ []) (hn : name ∈ commandNames) (hn' : name' ∈ commandNames)
    (h : Alike x (Cezos.text name)) (h' : Alike x (Cezos.text name')) : name = name' := by
  apply (names_head name hn).2 name' hn'
  rw [← alike_head h hx (names_head name hn).1, alike_head h' hx (names_head name' hn').1]

theorem names_alike {name name' : String} (hn : name ∈ commandNames) (hn' : name' ∈ commandNames)
    (h : Alike (Cezos.text name) (Cezos.text name')) : name = name' :=
  alike_names (names_head name hn).1 hn hn' (Or.inl (List.prefix_refl _)) h

theorem find_named (hc : c ∈ commands text k depth fuel) (hx : x = Cezos.text c.name) :
    (commands text k depth fuel).find? (fun c => decide (Alike x (Cezos.text c.name))) = some c := by
  have hself : Alike x (Cezos.text c.name) := Or.inl (hx ▸ List.prefix_refl x)
  cases hfind : (commands text k depth fuel).find? (fun c => decide (Alike x (Cezos.text c.name))) with
  | none => exact absurd (decide_eq_true hself) (List.find?_eq_none.mp hfind c hc)
  | some d =>
    have hd := List.mem_of_find?_eq_some hfind
    have hfound := List.find?_some hfind
    have halike : Alike x (Cezos.text d.name) := of_decide_eq_true hfound
    rw [hx] at halike
    have hname := names_alike (mem_commands hc) (mem_commands hd) halike
    simp only [commands, List.mem_cons, List.not_mem_nil, or_false] at hc hd
    rcases hc with rfl | rfl | rfl <;> rcases hd with rfl | rfl | rfl <;> first | rfl | simp at hname

theorem not_invalid (hc : c ∈ commands text k depth fuel) :
    c.function c.acount c.args s ≠ .ret Command.invalid s true := by
  intro h
  have hr : Returns true (c.function c.acount c.args) s Command.invalid s := ⟨true, h, fun _ => rfl⟩
  have hanswer := command_answers hc hr
  split at hanswer <;> exact absurd hanswer (by decide)

theorem dispatches_iff (hx : IsCString (s.bytes buf) p x) (hn : NamesAt k (s.bytes buf) 0 commandNames)
    (hf : x.length < fuel) : Dispatches text k depth fuel buf p s x ↔ Unmistakable x := by
  have hrun : runCommand text k depth fuel buf p s = _ := runFrom_calls hx hn hf
  constructor
  · intro h
    by_cases hname : ∃ name ∈ commandNames, x = Cezos.text name
    · exact Or.inl hname
    · have hnone : ∀ c ∈ commands text k depth fuel, x ≠ Cezos.text c.name := fun c hc he =>
        hname ⟨c.name, mem_commands hc, he⟩
      have hinvalid := h.invalid hnone
      refine Or.inr (fun name hmem halike => ?_)
      obtain ⟨c, hc, rfl⟩ := @exists_command text k depth fuel name hmem
      cases hfind : (commands text k depth fuel).find? (fun c => decide (Alike x (Cezos.text c.name))) with
      | none => exact List.find?_eq_none.mp hfind c hc (decide_eq_true halike)
      | some d =>
        rw [hrun, hfind] at hinvalid
        exact not_invalid (List.mem_of_find?_eq_some hfind) hinvalid
  · rintro (⟨name, hmem, he⟩ | hnot)
    · obtain ⟨d, hd, rfl⟩ := @exists_command text k depth fuel name hmem
      refine ⟨fun c hc he => ?_, fun hall => absurd he (hall d hd)⟩
      rw [hrun, find_named hc he]
    · refine ⟨fun c hc he => ?_, fun _ => ?_⟩
      · exact absurd (Or.inl (he ▸ List.prefix_refl x)) (hnot c.name (mem_commands hc))
      · have hnone : (commands text k depth fuel).find? (fun c => decide (Alike x (Cezos.text c.name))) = none := by
          refine List.find?_eq_none.mpr (fun c hc halike => ?_)
          exact hnot c.name (mem_commands hc) (of_decide_eq_true halike)
        rw [hrun, hnone]

/-! ### The loop of `wait_input` -/

theorem IsLine.isCString (h : IsLine s.buf x) (hfree : ∀ j < buflen, s.input.con.mem (buf + BitVec.ofNat 32 j) =
    none) :
    IsCString (s.bytes buf) buf x := by
  have hsize : buflen = 1024 := rfl
  have hfits := h.fits
  have hbyte : ∀ j ≤ x.length, s.bytes buf (buf + BitVec.ofNat 32 j) = some (s.buf j) := fun j hj => by
    have hback : (buf + BitVec.ofNat 32 j - buf).toNat = j := by
      rw [BitVec.add_comm, BitVec.add_sub_cancel, BitVec.toNat_ofNat]
      exact Nat.mod_eq_of_lt (by omega)
    rw [LineInput.bytes, hfree j (by omega), hback]
    exact if_pos (by omega)
  refine ⟨holds_of_get (fun j hj => ?_), h.no_nul⟩
  rw [List.length_append, List.length_singleton] at hj
  rw [hbyte j (by omega)]
  rcases Nat.lt_or_ge j x.length with hlt | hge
  · rw [h.chars j hlt, List.getElem?_append_left hlt]
  · obtain rfl : j = x.length := by omega
    rw [h.nul, List.getElem?_append_right (Nat.le_refl _), Nat.sub_self]
    rfl

theorem bytes_of_mem {q : Word} {b : Byte} (h : s.input.con.mem q = some b) : s.bytes buf q = some b := by
  rw [LineInput.bytes, h]

theorem NamesAt.mono {mem mem' : Bytes} {names : List String} {i : ℕ} (h : NamesAt k mem i names)
    (hm : ∀ p c, mem p = some c → mem' p = some c) : NamesAt k mem' i names := by
  induction names generalizing i with
  | nil => trivial
  | cons name names ih => exact ⟨h.1.mono hm, ih h.2⟩

/-- The strings of the table are there, the buffer is elsewhere, and the video card is not at the serial port. -/
structure Ready (k : CommandTexts) (buf : Word) (s : LineInput) : Prop where
  apart : s.input.con.Apart serialData
  names : NamesAt k s.input.con.mem 0 commandNames
  free : ∀ j < buflen, s.input.con.mem (buf + BitVec.ofNat 32 j) = none

theorem Ready.framed (h : Ready k buf s) (hs : s'.input.con.wiring = s.input.con.wiring) : Ready k buf s' := by
  have hport : s'.input.con.port = s.input.con.port := congrArg (·.2.1) hs
  have hmem : s'.input.con.mem = s.input.con.mem := congrArg (·.2.2.2) hs
  refine ⟨?_, ?_, ?_⟩
  · rw [Console.Apart, hport]
    exact h.apart
  · rw [hmem]
    exact h.names
  · rw [hmem]
    exact h.free

theorem frames_onLine {α : Type} {y : Con α} (h : Frames Console.setup y) :
    Frames (fun s : LineInput => s.input.con.wiring) (onInput (onConsole y)) := by
  have hinput : Frames (fun s : Input => s.con.wiring) (onConsole y) := .zoom (wired h) (fun _ _ hs => hs)
  exact .zoom hinput (fun _ _ hs => hs)

theorem frames_commandPrintf {fmt : Word} {ap : List Word} :
    Frames (fun s : LineInput => s.input.con.wiring) (commandPrintf text depth fuel fmt ap) :=
  (frames_onLine frames_consolePrintf).bind (fun _ => .pure _)

theorem frames_command (hc : c ∈ commands text k depth fuel) :
    Frames (fun s : LineInput => s.input.con.wiring) (c.function c.acount c.args) := by
  simp only [commands, List.mem_cons, List.not_mem_nil, or_false] at hc
  rcases hc with rfl | rfl | rfl
  · exact (Frames.forUp (fun _ => frames_commandPrintf) 0 3).bind (fun _ => .pure _)
  · exact frames_commandPrintf.bind (fun _ => frames_commandPrintf.bind (fun _ => frames_commandPrintf.bind (fun _ =>
      frames_commandPrintf.bind
        (fun _ => frames_commandPrintf.bind (fun _ => frames_commandPrintf.bind (fun _ => .pure _))))))
  · exact .pure _

theorem frames_runCommand :
    Frames (fun s : LineInput => s.input.con.wiring) (runCommand text k depth fuel buf p) := by
  have hall : ∀ c ∈ commands text k depth fuel, Frames (fun s : LineInput => s.input.con.wiring)
    (c.function c.acount c.args) :=
    fun c hc => frames_command hc
  unfold runCommand
  generalize commands text k depth fuel = cs at hall
  generalize 0 = i
  induction cs generalizing i with
  | nil => exact .pure _
  | cons c cs ih =>
    have hread : ∀ q, Frames (fun s : LineInput => s.input.con.wiring) (onMemory buf (Strings.strcmp fuel p q)) := by
      intro q st s a s' hr
      obtain ⟨_, _, rfl⟩ := returns_zoom.mp hr
      rfl
    exact (hread _).bind
      (fun r => .ite (hall c List.mem_cons_self) (ih (fun d hd => hall d (List.mem_cons_of_mem c hd)) (i + 1)))

theorem frames_clearScreen : Frames (fun s : LineInput => s.input.con.wiring) (clearScreen text k depth fuel) :=
  .forUp (fun _ => frames_commandPrintf) 0 3

theorem frames_readlineTurn {echoing c : CInt} {i : ℕ} :
    Frames (fun s : LineInput => s.input.con.wiring) (readlineTurn text depth fuel echoing i c) := by
  have hecho : ∀ d, Frames (fun s : LineInput => s.input.con.wiring) (echo depth echoing d) :=
    fun d => .ite (frames_onLine frames_cputchar) (.pure _)
  have hput : ∀ d, Frames (fun s : LineInput => s.input.con.wiring) (Prog.modify (·.setBuf i d)) :=
    fun d => .modify (fun _ => rfl)
  apply Frames.ite
  · exact (frames_onLine frames_consolePrintf).bind (fun _ => .pure _)
  · apply Frames.ite
    · exact (hecho _).bind (fun _ => .pure _)
    · apply Frames.ite
      · exact (hecho _).bind (fun _ => (hput _).bind (fun _ => .pure _))
      · apply Frames.ite
        · exact (hecho _).bind (fun _ => (hput _).bind (fun _ => .pure _))
        · exact .pure _

theorem frames_readline {prompt : Word} :
    Frames (fun s : LineInput => s.input.con.wiring) (readline text depth fuel prompt) := by
  have hfst : ∀ s s' : LineInput, (s'.input.con.wiring, s'.buf) = (s.input.con.wiring, s.buf) →
      s'.input.con.wiring = s.input.con.wiring := fun _ _ h => congrArg Prod.fst h
  apply Frames.bind (frames_readlinePrompt.mono hfst)
  intro _
  apply Frames.whileSome
  intro t
  cases t with
  | again i => exact (frames_getchar.mono hfst).bind (fun _ => frames_readlineTurn.bind (fun _ => .pure _))
  | null => exact .pure _
  | line => exact .pure _

def RunsLine (text : ConsoleTexts) (k : CommandTexts) (depth fuel : ℕ) (buf : Word) (s : LineInput)
    (e : List Byte × CInt)
    (s' : LineInput) : Prop :=
  ∃ s₁, Returns false (readline text depth fuel k.prompt) s .line s₁ ∧ IsLine s₁.buf e.1 ∧
    Returns false (runCommand text k depth fuel buf buf) s₁ e.2 s'

theorem Ready.runsLine {e : List Byte × CInt} (h : Ready k buf s)
    (hrun : RunsLine text k depth fuel buf s e s') : Ready k buf s' := by
  obtain ⟨s₁, hread, _, hcall⟩ := hrun
  exact (h.framed (frames_readline _ _ _ _ hread)).framed (frames_runCommand _ _ _ _ hcall)

theorem poweroff_iff (h : Ready k buf s) (hx : IsLine s.buf x) (hf : buflen ≤ fuel)
    (hr : Returns false (runCommand text k depth fuel buf buf) s r s') :
    r = Command.poweroff ↔ x ≠ [] ∧ Alike x (Cezos.text "shutdown") := by
  have hnames : NamesAt k (s.bytes buf) 0 commandNames := h.names.mono (fun _ _ hb => bytes_of_mem hb)
  have hrun : runCommand text k depth fuel buf buf s = _ :=
    runFrom_calls (hx.isCString h.free) hnames (Nat.lt_of_lt_of_le hx.fits hf)
  obtain ⟨clean, hr, hclean⟩ := hr
  rw [hrun] at hr
  cases hfind : (commands text k depth fuel).find? (fun c => decide (Alike x (Cezos.text c.name))) with
  | none =>
    rw [hfind] at hr
    cases hr
    have hshutdown := List.find?_eq_none.mp hfind ⟨"shutdown", 0#32, 0#32, poweroffMachine⟩
      (List.mem_cons_of_mem _ (List.mem_cons_of_mem _ List.mem_cons_self))
    exact iff_of_false (by decide) (fun ha => hshutdown (decide_eq_true ha.2))
  | some c =>
    rw [hfind] at hr
    have hc := List.mem_of_find?_eq_some hfind
    have hfound := List.find?_some hfind
    have halike : Alike x (Cezos.text c.name) := of_decide_eq_true hfound
    rw [command_answers hc ⟨clean, hr, hclean⟩]
    by_cases hname : c.name = "shutdown"
    · rw [if_pos hname]
      refine iff_of_true rfl ⟨?_, hname ▸ halike⟩
      rintro rfl
      -- an empty line is taken for the first command
      rw [show commands text k depth fuel = ⟨"help", 0#32, 0#32, displayHelp text k depth fuel⟩ ::
        (commands text k depth fuel).tail
        from rfl, List.find?_cons, decide_eq_true (p := Alike [] _) (Or.inl List.nil_prefix)] at hfind
      obtain rfl := Option.some.inj hfind
      exact absurd (show "help" = "shutdown" from hname) (by decide)
    · rw [if_neg hname]
      exact iff_of_false (by decide) (fun ha => hname
        (alike_names ha.1 (mem_commands hc) (List.mem_cons_of_mem _ (List.mem_cons_of_mem _ List.mem_cons_self))
        halike ha.2))

theorem alike_shutdown (h : Unmistakable x) : x ≠ [] ∧ Alike x (Cezos.text "shutdown") ↔
    x = Cezos.text "shutdown" := by
  have hmem : "shutdown" ∈ commandNames := List.mem_cons_of_mem _ (List.mem_cons_of_mem _ List.mem_cons_self)
  constructor
  · rintro ⟨_, halike⟩
    rcases h with ⟨name, hname, rfl⟩ | hnot
    · rw [names_alike hname hmem halike]
    · exact absurd halike (hnot _ hmem)
  · rintro rfl
    exact ⟨by decide, Or.inl (List.prefix_refl _)⟩

theorem waitStep_none (h : Returns false (waitStep text k depth fuel buf ()) s none s') (hd : 2 ≤ depth)
    (hs : Ready k buf s) :
    ∃ e, RunsLine text k depth fuel buf s e s' ∧ e.2 = Command.poweroff := by
  obtain ⟨t, s₁, hread, hrest⟩ := returns_bind.mp h
  obtain ⟨rfl, x, hx⟩ := readline_line hd hs.apart hread
  rw [if_pos rfl] at hrest
  obtain ⟨r, s₂, hcall, hrest⟩ := returns_bind.mp hrest
  rcases returns_ite.mp hrest with ⟨hr, hrest⟩ | ⟨_, hrest⟩
  · obtain ⟨_, rfl⟩ := returns_pure.mp hrest
    exact ⟨(x, r), ⟨s₁, hread, hx, hcall⟩, hr⟩
  · cases (returns_pure.mp hrest).1

theorem waitStep_some (h : Returns false (waitStep text k depth fuel buf ()) s (some ()) s') (hd : 2 ≤ depth)
    (hs : Ready k buf s) :
    ∃ e, RunsLine text k depth fuel buf s e s' ∧ e.2 ≠ Command.poweroff := by
  obtain ⟨t, s₁, hread, hrest⟩ := returns_bind.mp h
  obtain ⟨rfl, x, hx⟩ := readline_line hd hs.apart hread
  rw [if_pos rfl] at hrest
  obtain ⟨r, s₂, hcall, hrest⟩ := returns_bind.mp hrest
  rcases returns_ite.mp hrest with ⟨_, hrest⟩ | ⟨hr, hrest⟩
  · cases (returns_pure.mp hrest).1
  · obtain ⟨_, rfl⟩ := returns_pure.mp hrest
    exact ⟨(x, r), ⟨s₁, hread, hx, hcall⟩, hr⟩

theorem waitStep_returns {e : List Byte × CInt} (h : RunsLine text k depth fuel buf s e s') :
    Returns false (waitStep text k depth fuel buf ()) s (if e.2 = Command.poweroff then none else some ()) s' := by
  obtain ⟨s₁, hread, _, hcall⟩ := h
  refine returns_bind.mpr ⟨.line, s₁, hread, ?_⟩
  rw [if_pos rfl]
  refine returns_bind.mpr ⟨e.2, s', hcall, ?_⟩
  by_cases hr : e.2 = Command.poweroff
  · rw [if_pos hr, if_pos hr]
    exact returns_pure.mpr ⟨rfl, rfl⟩
  · rw [if_neg hr, if_neg hr]
    exact returns_pure.mpr ⟨rfl, rfl⟩

/-- The lines that the loop reads until one of them answers `POWEROFF`. -/
structure Waited (text : ConsoleTexts) (k : CommandTexts) (depth fuel : ℕ) (buf : Word) (s : LineInput)
    (es : List (List Byte × CInt)) (e : List Byte × CInt) (s' : LineInput) : Prop where
  lines : Trace (RunsLine text k depth fuel buf) s (es ++ [e]) s'
  stays : ∀ e' ∈ es, e'.2 ≠ Command.poweroff
  leaves : e.2 = Command.poweroff

theorem waitLoop_iff {n : ℕ} (hd : 2 ≤ depth) (hs : Ready k buf s) :
    Returns false (Prog.whileSome (waitStep text k depth fuel buf) n ()) s () s' ↔
      ∃ es e, Waited text k depth fuel buf s es e s' ∧ es.length < n := by
  induction n generalizing s with
  | zero => exact iff_of_false returns_spin (fun ⟨_, _, _, h⟩ => Nat.not_lt_zero _ h)
  | succ n ih =>
    rw [returns_whileSome_succ]
    constructor
    · rintro (⟨hstep, _⟩ | ⟨_, s₁, hstep, hrest⟩)
      · obtain ⟨e, hline, hr⟩ := waitStep_none hstep hd hs
        exact ⟨[], e, ⟨.single hline, nofun, hr⟩, Nat.succ_pos n⟩
      · obtain ⟨e, hline, hr⟩ := waitStep_some hstep hd hs
        obtain ⟨es, e', hrun, hn⟩ := (ih (hs.runsLine hline)).mp hrest
        exact ⟨e :: es, e', ⟨.cons hline hrun.lines, List.forall_mem_cons.mpr ⟨hr, hrun.stays⟩, hrun.leaves⟩,
          Nat.succ_lt_succ hn⟩
    · rintro ⟨es, e, hrun, hn⟩
      cases es with
      | nil =>
        obtain ⟨s₁, hline, hnil⟩ := Trace.cons_iff.mp hrun.lines
        obtain rfl := Trace.nil_iff.mp hnil
        have hstep := waitStep_returns hline
        rw [if_pos hrun.leaves] at hstep
        exact Or.inl ⟨hstep, rfl⟩
      | cons e' es =>
        obtain ⟨s₁, hline, hrest⟩ := Trace.cons_iff.mp hrun.lines
        obtain ⟨hr, hstays⟩ := List.forall_mem_cons.mp hrun.stays
        have hstep := waitStep_returns hline
        rw [if_neg hr] at hstep
        exact Or.inr
          ⟨(), s₁, hstep,
          (ih (hs.runsLine hline)).mpr ⟨es, e, ⟨hrest, hstays, hrun.leaves⟩, Nat.lt_of_succ_lt_succ hn⟩⟩

theorem waitInput_iff (hd : 2 ≤ depth) (hs : Ready k buf s) :
    Returns false (waitInput text k depth fuel buf) s () s' ↔
    ∃ s₀ es e, Returns false (clearScreen text k depth fuel) s () s₀ ∧ Waited text k depth fuel buf s₀ es e s' ∧
    es.length < fuel := by
  rw [waitInput, returns_bind]
  constructor
  · rintro ⟨_, s₀, hclear, hloop⟩
    obtain ⟨es, e, hrun⟩ := (waitLoop_iff hd (hs.framed (frames_clearScreen _ _ _ _ hclear))).mp hloop
    exact ⟨s₀, es, e, hclear, hrun⟩
  · rintro ⟨s₀, es, e, hclear, hrun⟩
    exact ⟨(), s₀, hclear, (waitLoop_iff hd (hs.framed (frames_clearScreen _ _ _ _ hclear))).mpr ⟨es, e, hrun⟩⟩

theorem lines_answer {es : List (List Byte × CInt)} (hf : buflen ≤ fuel) (hs : Ready k buf s)
    (h : Trace (RunsLine text k depth fuel buf) s es s') :
    ∀ e ∈ es, (e.2 = Command.poweroff ↔ e.1 ≠ [] ∧ Alike e.1 (Cezos.text "shutdown")) := by
  induction h with
  | nil s => exact nofun
  | cons head tail ih =>
    refine List.forall_mem_cons.mpr ⟨?_, ih (hs.runsLine head)⟩
    obtain ⟨s₁, hread, hx, hcall⟩ := head
    exact poweroff_iff (hs.framed (frames_readline _ _ _ _ hread)) hx hf hcall

theorem runCommand_exact_iff (hd : 2 ≤ depth) (hf : buflen ≤ fuel) (hs : Ready k buf s) :
    (∀ p x, IsCString (s.bytes buf) p x → x.length < fuel →
    (Dispatches text k depth fuel buf p s x ↔ Unmistakable x)) ∧
    (∀ s', Returns false (waitInput text k depth fuel buf) s () s' →
    ∃ s₀ es e, Returns false (clearScreen text k depth fuel) s () s₀ ∧
      Trace (RunsLine text k depth fuel buf) s₀ (es ++ [e]) s' ∧ (∀ e' ∈ es, e'.1 ≠ Cezos.text "shutdown") ∧
      (e.1 = Cezos.text "shutdown" ↔ Unmistakable e.1)) ∧
    ∀ s₀ es e s', Returns false (clearScreen text k depth fuel) s () s₀ →
    Trace (RunsLine text k depth fuel buf) s₀ (es ++ [e]) s' →
      (∀ e' ∈ es, Unmistakable e'.1 ∧ e'.1 ≠ Cezos.text "shutdown") → e.1 = Cezos.text "shutdown" →
      es.length < fuel →
      Returns false (waitInput text k depth fuel buf) s () s' := by
  have hmem : "shutdown" ∈ commandNames := List.mem_cons_of_mem _ (List.mem_cons_of_mem _ List.mem_cons_self)
  have hself : Cezos.text "shutdown" ≠ [] ∧ Alike (Cezos.text "shutdown") (Cezos.text "shutdown") :=
    ⟨by decide, Or.inl (List.prefix_refl _)⟩
  have hclears : ∀ s₀, Returns false (clearScreen text k depth fuel) s () s₀ → Ready k buf s₀ := fun s₀ hclear =>
    hs.framed (frames_clearScreen _ _ _ _ hclear)
  refine ⟨fun p x hx hfuel => ?_, fun s' h => ?_, fun s₀ es e s' hclear hrun hes he hn => ?_⟩
  · exact dispatches_iff hx (hs.names.mono (fun _ _ hb => bytes_of_mem hb)) hfuel
  · obtain ⟨s₀, es, e, hclear, hwait, _⟩ := (waitInput_iff hd hs).mp h
    have hanswer := lines_answer hf (hclears s₀ hclear) hwait.lines
    refine ⟨s₀, es, e, hclear, hwait.lines, fun e' he' hshut => ?_, fun hshut =>
      Or.inl ⟨_, hmem, hshut⟩, fun hx => ?_⟩
    · refine hwait.stays e' he' ((hanswer e' (List.mem_append_left _ he')).mpr ?_)
      rw [hshut]
      exact hself
    · have hlast := (hanswer e (List.mem_append_right _ List.mem_cons_self)).mp hwait.leaves
      exact (alike_shutdown hx).mp hlast
  · have hanswer := lines_answer hf (hclears s₀ hclear) hrun
    refine (waitInput_iff hd hs).mpr ⟨s₀, es, e, hclear, ⟨hrun, fun e' he' hr => ?_, ?_⟩, hn⟩
    · obtain ⟨hx, hne⟩ := hes e' he'
      exact hne ((alike_shutdown hx).mp ((hanswer e' (List.mem_append_left _ he')).mp hr))
    · apply (hanswer e (List.mem_append_right _ List.mem_cons_self)).mpr
      rw [he]
      exact hself

def commandTexts : CommandTexts where
  nameAt i := match i with
    | 0 => 0#32
    | 1 => 5#32
    | _ => 14#32
  descriptionAt _ := 0#32
  helpFormat := 4#32
  symbolsFormat := 4#32
  startFormat := 4#32
  entryFormat := 4#32
  etextFormat := 4#32
  edataFormat := 4#32
  endFormat := 4#32
  start := 0x100000#32
  entry := 0xC0100000#32
  etext := 0xC0200000#32
  edata := 0xC0300000#32
  endBss := 0xC0400000#32
  clr := 4#32
  prompt := 0#32

def nameBytes : Bytes :=
  image (Cezos.text "help" ++ [0#8] ++ (Cezos.text "kerninfo" ++ [0#8]) ++ (Cezos.text "shutdown" ++ [0#8]))

def commandInput (x : List Byte) : LineInput where
  input := {
    con := { fullConsole with mem := nameBytes }
    cons := ⟨fun _ => 0#8, 0#32, 0#32⟩ }
  buf j := x[j]?.getD 0#8

theorem commandInput_ready : Ready commandTexts 0x1000#32 (commandInput x) where
  apart := by
    change fullConsole.Apart serialData
    decide
  names := by
    change NamesAt commandTexts nameBytes 0 commandNames
    exact ⟨⟨by decide, by decide⟩, ⟨by decide, by decide⟩, ⟨by decide, by decide⟩, trivial⟩
  free j hj := by
    have hsize : buflen = 1024 := rfl
    have haddr : (0x1000#32 + BitVec.ofNat 32 j).toNat = 0x1000 + j := by
      rw [BitVec.toNat_add, BitVec.toNat_ofNat, BitVec.toNat_ofNat]
      omega
    change nameBytes _ = none
    rw [nameBytes, image, haddr]
    apply List.getElem?_eq_none
    change 23 ≤ 0x1000 + j
    omega

theorem commandInput_line (hfits : x.length < buflen) (hx : 0#8 ∉ x) :
    IsCString ((commandInput x).bytes 0x1000#32) 0x1000#32 x := by
  refine IsLine.isCString ⟨hfits, fun j hj => ?_, ?_, hx⟩ (commandInput_ready (x := x)).free
  · change some (x[j]?.getD 0#8) = _
    rw [List.getElem?_eq_getElem hj, Option.getD_some]
  · change x[x.length]?.getD 0#8 = _
    rw [List.getElem?_eq_none (Nat.le_refl _), Option.getD_none]

theorem runCommand_exact_shutdown :
    Dispatches noTexts commandTexts 2 1024 0x1000#32 0x1000#32 (commandInput (Cezos.text "shutdown"))
    (Cezos.text "shutdown") :=
  ((runCommand_exact_iff (Nat.le_refl 2) (Nat.le_refl 1024) commandInput_ready).1 _ _
  (commandInput_line (by decide) (by decide))
    (by decide)).mpr (Or.inl ⟨"shutdown", by decide, rfl⟩)

theorem not_runCommand_exact :
    ¬ ∀ (text : ConsoleTexts) (k : CommandTexts) (depth fuel : ℕ) (buf p : Word) (s : LineInput)
    (x : List Byte), 2 ≤ depth → Ready k buf s → IsCString (s.bytes buf) p x → x.length < fuel →
    Dispatches text k depth fuel buf p s x := by
  intro h
  have hline := commandInput_line (x := []) (by decide) (by decide)
  have hempty := h noTexts commandTexts 2 1024 _ _ _ _ (Nat.le_refl 2) commandInput_ready hline (by decide)
  have hnames : NamesAt commandTexts ((commandInput []).bytes 0x1000#32) 0 commandNames :=
    commandInput_ready.names.mono (fun _ _ hb => bytes_of_mem hb)
  -- the first command is called
  rcases (dispatches_iff hline hnames (by decide)).mp hempty with ⟨name, hname, he⟩ | hnot
  · exact (names_head name hname).1 he.symm
  · exact hnot "help" (by decide) (Or.inl List.nil_prefix)

end Cezos
