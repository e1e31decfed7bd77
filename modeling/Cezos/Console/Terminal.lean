import Cezos.Console.Command
import Cezos.Console.Session

namespace Cezos

open Lib

/-! ### `getchar` and `readline`, for any source of characters -/

section Hosts

variable {σ : Type} (onLine : ∀ {α : Type}, Prog LineInput α → Prog σ α) (getchar : Prog σ CInt)
    (text : ConsoleTexts) (depth fuel : ℕ)

def getcharOn (getc : Prog σ CInt) (fuel : ℕ) : Prog σ CInt :=
  Prog.whileSome (fun c => if c = 0#32 then do
      let c ← getc
      return some c
    else return none) fuel 0#32

def readlineStepOn (echoing : CInt) : Turn → Prog σ (Option Turn)
  | .again i => do
    let c ← getchar
    let t ← onLine (readlineTurn text depth fuel echoing i c)
    return some t
  | .null => return none
  | .line => return none

def readlineOn (prompt : Word) : Prog σ Turn := do
  onLine (readlinePrompt text depth fuel prompt)
  Prog.whileSome (readlineStepOn onLine getchar text depth fuel (iscons 0#32)) fuel (.again 0)

end Hosts

variable {text : ConsoleTexts} {depth fuel n i : ℕ} {mem : Bytes} {c r : CInt} {shift prompt : Word}

theorem getcharOn_input : getcharOn (consoleGetc text depth fuel) fuel = getchar text depth fuel := rfl

theorem readlineStepOn_line : readlineStepOn (fun x => x) (onInput (getchar text depth fuel)) text depth fuel =
    readlineStep text depth fuel := by
  funext echoing t
  cases t <;> rfl

theorem readlineOn_line : readlineOn (fun x => x) (onInput (getchar text depth fuel)) text depth fuel prompt =
    readline text depth fuel prompt := by
  rw [readlineOn, readlineStepOn_line, readline]

/-! ### A keyboard that is typed on while the console waits -/

/-- The script has the bytes that come before each poll; after it nothing comes any more. -/
structure Terminal where
  line : LineInput
  queue : List QueuedByte
  script : List (List Byte)

namespace Terminal

def controller (s : Terminal) : Controller := ⟨s.line.input, s.queue⟩

def onLine {α : Type} (x : Prog LineInput α) : Prog Terminal α :=
  Prog.zoom (·.line) (fun s line => { s with line := line }) x

def onController {α : Type} (x : Prog Controller α) : Prog Terminal α :=
  Prog.zoom controller (fun s c => { s with line := { s.line with input := c.input }, queue := c.queue }) x

-- a byte that comes while a poll reads the queue is read by this poll, as one that came before it
def arrive : Prog Terminal Unit :=
  Prog.modify (fun s => { s with queue := s.queue ++ (s.script.headD []).map (⟨·, false⟩), script := s.script.tail })

def consoleGetc (text : ConsoleTexts) (depth fuel : ℕ) : Prog Terminal CInt := do
  arrive
  onController (Controller.consoleGetc text depth fuel)

def getchar (text : ConsoleTexts) (depth fuel : ℕ) : Prog Terminal CInt :=
  getcharOn (consoleGetc text depth fuel) fuel

def readline (text : ConsoleTexts) (depth fuel : ℕ) (prompt : Word) : Prog Terminal Turn :=
  readlineOn onLine (getchar text depth fuel) text depth fuel prompt

end Terminal

/-- The ring has room for what comes, when each poll takes a character from it. -/
def Paced : Word → ℕ → List (List Byte) → Prop
  | _, _, [] => True
  | shift, n, bs :: script => n + (decoded shift bs).length ≤ 511 ∧
      Paced (bs.foldl shiftAfter shift) (n + (decoded shift bs).length - 1) script

structure Awaits (mem : Bytes) (s : Terminal) (u : List CInt) : Prop where
  queue : s.queue = []
  alone : Alone mem s.line.input.con
  text : ∃ q, Pending s.line.input.cons q ∧ u = q ++ decoded s.line.input.con.shift s.script.flatten ∧
    Paced s.line.input.con.shift q.length s.script

variable {s s' : Terminal} {u rest q : List CInt}

namespace Awaits

theorem chars (h : Awaits mem s u) : ∀ c ∈ u, c ≠ 0#32 ∧ c.toNat < 256 := by
  obtain ⟨q, hq, rfl, _⟩ := h.text
  intro c hc
  rcases List.mem_append.mp hc with hc | hc
  · exact hq.chars c hc
  · exact decoded_chars c hc

theorem head_room (h : Pending s.line.input.cons q) (hpaced : Paced shift q.length s.script) :
    q.length + (decoded shift (s.script.headD [])).length ≤ 511 ∧
      Paced ((s.script.headD []).foldl shiftAfter shift)
        (q.length + (decoded shift (s.script.headD [])).length - 1) s.script.tail := by
  cases hs : s.script with
  | nil =>
    have hlt : q.length < 512 := h.length_lt
    exact ⟨Nat.le_of_lt_succ hlt, trivial⟩
  | cons bs script =>
    rw [hs] at hpaced
    exact hpaced

theorem decoded_head (shift : Word) (script : List (List Byte)) : decoded shift script.flatten =
    decoded shift (script.headD []) ++ decoded ((script.headD []).foldl shiftAfter shift) script.tail.flatten := by
  cases script with
  | nil => rfl
  | cons bs script => rw [List.flatten_cons, decoded_append, List.headD_cons, List.tail_cons]

theorem length_behind (h : u = (if r = 0#32 then [] else [r]) ++ q) (hnone : r = 0#32 ↔ u = []) :
    q.length = u.length - 1 := by
  by_cases hz : r = 0#32
  · rw [if_pos hz, List.nil_append] at h
    rw [← h, hnone.mp hz]
    rfl
  · rw [if_neg hz] at h
    rw [h, List.length_append, List.length_singleton]
    omega

theorem poll (h : Awaits mem s u) (hd : 2 ≤ depth) (hann : Controller.Announces text depth fuel mem)
    (hlen : (s.script.headD []).length < fuel) :
    ∃ r s' u', Returns false (Terminal.consoleGetc text depth fuel) s r s' ∧ Awaits mem s' u' ∧
    u = (if r = 0#32 then [] else [r]) ++ u' ∧
      (r = 0#32 → s.script = [] → u = []) ∧ s'.script = s.script.tail ∧ s'.line.buf = s.line.buf ∧
      s'.line.input.con.wiring = s.line.input.con.wiring := by
  obtain ⟨q, hq, hu, hpaced⟩ := h.text
  obtain ⟨hroom, hpaced⟩ := head_room hq hpaced
  let c : Controller := ⟨s.line.input, (s.script.headD []).map (⟨·, false⟩)⟩
  have hbytes : c.queue.map (·.byte) = s.script.headD [] := by
    change ((s.script.headD []).map (QueuedByte.mk · false)).map (·.byte) = _
    rw [List.map_map]
    exact List.map_id _
  have hkeyboard : ∀ b ∈ c.queue, b.mouse = false := by simp [c]
  have hsplit := decoded_head s.line.input.con.shift s.script
  obtain ⟨r, c', hr⟩ := Controller.consoleGetc_ends (s := c) h.alone hann (by simpa [c] using hlen)
  obtain ⟨hqueue, halone, hshift, hnone, q', hq', hpending⟩ :=
    Controller.taken_first (s := c) hkeyboard h.alone hq hd (by rwa [hbytes]) hr
  rw [hbytes] at hshift hnone hq'
  have hlength : q'.length = q.length + (decoded s.line.input.con.shift (s.script.headD [])).length - 1 := by
    rw [length_behind hq' hnone, List.length_append]
  refine ⟨r, ⟨{ s.line with input := c'.input }, c'.queue, s.script.tail⟩, q' ++
    decoded c'.input.con.shift s.script.tail.flatten, ?_,
    ⟨hqueue, halone, q', hpending, rfl, ?_⟩, ?_, ?_, rfl, rfl, Controller.consoleGetc_wiring h.alone.2 hr⟩
  · have harrive : Returns false Terminal.arrive s () { s with queue := c.queue, script := s.script.tail } :=
      returns_modify.mpr (by rw [h.queue, List.nil_append])
    exact returns_bind.mpr ⟨(), _, harrive, returns_zoom.mpr ⟨c', hr, rfl⟩⟩
  · rw [hlength]
    change Paced c'.input.con.shift _ _
    rw [hshift]
    exact hpaced
  · rw [hu, hsplit, ← List.append_assoc, ← List.append_assoc, hshift]
    exact congrArg (· ++ _) hq'
  · intro hz hnil
    have hempty := hnone.mp hz
    rw [hu, hsplit, hnil]
    rw [hnil] at hempty
    rw [← List.append_assoc]
    exact congrArg (· ++ _) hempty

end Awaits

/-! ### `getchar` -/

section Getchar

variable {σ : Type} {getc : Prog σ CInt} {t t₁ t' : σ}

theorem getcharOn_stops (h : Returns false getc t c t') (hc : c ≠ 0#32) :
    Returns false (getcharOn getc (n + 2)) t c t' := by
  refine returns_whileSome_succ.mpr (Or.inr ⟨c, t', ?_, ?_⟩)
  · exact returns_ite.mpr (Or.inl ⟨rfl, returns_bind.mpr ⟨c, t', h, returns_pure.mpr ⟨rfl, rfl⟩⟩⟩)
  · exact returns_whileSome_succ.mpr (Or.inl ⟨returns_ite.mpr (Or.inr ⟨hc, returns_pure.mpr ⟨rfl, rfl⟩⟩), rfl⟩)

theorem getcharOn_goes_on (h : Returns false getc t 0#32 t₁) (hrest : Returns false (getcharOn getc n) t₁ c t') :
    Returns false (getcharOn getc (n + 1)) t c t' := by
  refine returns_whileSome_succ.mpr (Or.inr ⟨0#32, t₁, ?_, hrest⟩)
  exact returns_ite.mpr (Or.inl ⟨rfl, returns_bind.mpr ⟨0#32, t₁, h, returns_pure.mpr ⟨rfl, rfl⟩⟩⟩)

end Getchar

structure EnoughFuel (text : ConsoleTexts) (depth fuel : ℕ) (mem : Bytes) (script : List (List Byte)) : Prop where
  announces : Controller.Announces text depth fuel mem
  polls : script.length + 1 < fuel
  chunks : ∀ bs ∈ script, bs.length < fuel

theorem EnoughFuel.suffix {script script' : List (List Byte)} (h : EnoughFuel text depth fuel mem script)
    (hs : script' <:+ script) :
    EnoughFuel text depth fuel mem script' :=
  ⟨h.announces, Nat.lt_of_le_of_lt (Nat.succ_le_succ hs.length_le) h.polls, fun bs hbs =>
  h.chunks bs (hs.subset hbs)⟩

theorem EnoughFuel.head {script : List (List Byte)} (h : EnoughFuel text depth fuel mem script) :
    (script.headD []).length < fuel := by
  cases script with
  | nil => exact Nat.lt_of_le_of_lt (Nat.zero_le _) h.polls
  | cons bs script => exact h.chunks bs List.mem_cons_self

namespace Awaits

theorem getcharOn_takes (h : Awaits mem s (c :: u)) (hd : 2 ≤ depth)
    (he : EnoughFuel text depth fuel mem s.script) (hn : s.script.length + 1 < n) :
    ∃ s', Returns false (getcharOn (Terminal.consoleGetc text depth fuel) n) s c s' ∧ Awaits mem s' u ∧
    s'.script <:+ s.script ∧
      s'.line.buf = s.line.buf ∧ s'.line.input.con.wiring = s.line.input.con.wiring := by
  induction hscript : s.script generalizing s n with
  | nil =>
    obtain ⟨n, rfl⟩ : ∃ k, n = k + 2 := ⟨n - 2, by omega⟩
    obtain ⟨r, s₁, u', hr, hnext, hu, hnone, htail, hbuf, hwiring⟩ := h.poll hd he.announces he.head
    have hz : r ≠ 0#32 := fun hz => List.cons_ne_nil c u (hnone hz hscript)
    rw [if_neg hz, List.singleton_append] at hu
    obtain ⟨rfl, rfl⟩ := List.cons.inj hu
    refine ⟨s₁, getcharOn_stops hr hz, hnext, ?_, hbuf, hwiring⟩
    rw [htail, hscript]
    exact List.suffix_refl _
  | cons bs script ih =>
    obtain ⟨n, rfl⟩ : ∃ k, n = k + 2 := ⟨n - 2, by omega⟩
    obtain ⟨r, s₁, u', hr, hnext, hu, _, htail, hbuf, hwiring⟩ := h.poll hd he.announces he.head
    have hsuffix : s₁.script <:+ bs :: script := by
      rw [htail, hscript]
      exact List.suffix_cons bs script
    by_cases hz : r = 0#32
    · rw [if_pos hz, List.nil_append] at hu
      subst hz hu
      have hrest : s₁.script = script := by rw [htail, hscript, List.tail_cons]
      obtain ⟨s', hget, hawaits, hs', hbuf', hwiring'⟩ := ih hnext (he.suffix (hscript ▸ hsuffix)) (n := n + 1) (by
        rw [hrest]
        rw [hscript, List.length_cons] at hn
        omega) hrest
      exact ⟨s', getcharOn_goes_on hr hget, hawaits, hs'.trans (List.suffix_cons bs script), hbuf'.trans hbuf,
        hwiring'.trans hwiring⟩
    · rw [if_neg hz, List.singleton_append] at hu
      obtain ⟨rfl, rfl⟩ := List.cons.inj hu
      exact ⟨s₁, getcharOn_stops hr hz, hnext, hsuffix, hbuf, hwiring⟩

end Awaits

/-! ### `readline` -/

def Still (mem : Bytes) (shift : Word) (k : Cons) (l : LineInput) : Prop :=
  Alone mem l.input.con ∧ l.input.con.shift = shift ∧ l.input.cons = k

variable {k : Cons} {l : LineInput} {x : List Byte} {t : Turn}

theorem still_onConsole {α : Type} {y : Con α} (hp : Preserves (Controller.Prints mem) y)
    (hf : Frames Console.setup y) :
    Preserves (Still mem shift k) (onInput (onConsole y)) := by
  intro st s a s' hs hr
  obtain ⟨ha, hshift, hcons⟩ := hs
  obtain ⟨t, ht, rfl⟩ := returns_zoom.mp hr
  obtain ⟨d, hd, rfl⟩ := returns_zoom.mp ht
  have hkeep := hf _ _ _ _ hd
  simp only [Console.setup, Prod.mk.injEq] at hkeep
  exact ⟨⟨hp _ _ _ _ ha.1 hd, hkeep.2.2.1.trans ha.2⟩, hkeep.2.2.2.2.trans hshift, hcons⟩

theorem cputchar_preserves (hd : 2 ≤ depth) : Preserves (Controller.Prints mem) (cputchar depth c) := by
  intro st s a s' hs hr
  have hmem : s'.mem = s.mem := congrArg (·.2.2.2.1) (frames_cputchar _ _ _ _ hr)
  obtain ⟨d, hacts, _, hpos⟩ := cputchar_acts (c := c) hd s hs.2
  refine ⟨hmem.trans hs.1, ?_⟩
  rwa [(hr.loosen.unique hacts.loosen).2]

theorem still_printf (hd : 2 ≤ depth) {fmt : Word} {ap : List Word} :
    Preserves (Still mem shift k) (onInput (onConsole (consolePrintf text depth fuel fmt ap))) :=
  still_onConsole (consolePrintf_preserves hd) frames_consolePrintf

theorem still_prompt (hd : 2 ≤ depth) : Preserves (Still mem shift k) (readlinePrompt text depth fuel prompt) :=
  .ite ((still_printf hd).bind (fun _ => .pure _)) (.pure _)

theorem still_turn (hd : 2 ≤ depth) :
    Preserves (Still mem shift k) (readlineTurn text depth fuel (iscons 0#32) i c) := by
  have hecho : ∀ c, Preserves (Still mem shift k) (echo depth (iscons 0#32) c) :=
    fun c => .ite (still_onConsole (cputchar_preserves hd) frames_cputchar) (.pure _)
  have hset : ∀ i c, Preserves (Still mem shift k) (Prog.modify (·.setBuf i c)) :=
    fun i c => .modify (fun _ hs => hs)
  apply Preserves.ite
  · exact (still_printf hd).bind (fun _ => .pure _)
  · apply Preserves.ite
    · exact (hecho _).bind (fun _ => .pure _)
    · apply Preserves.ite
      · exact (hecho _).bind (fun _ => (hset _ _).bind (fun _ => .pure _))
      · apply Preserves.ite
        · exact (hecho _).bind (fun _ => (hset _ _).bind (fun _ => .pure _))
        · exact .pure _

theorem Awaits.of_still (h : Awaits mem s u) (hl : Still mem s.line.input.con.shift s.line.input.cons l) :
    Awaits mem { s with line := l } u := by
  obtain ⟨ha, hshift, hcons⟩ := hl
  obtain ⟨q, hq, hu, hpaced⟩ := h.text
  refine ⟨h.queue, ha, q, hcons ▸ hq, ?_, ?_⟩
  · change u = q ++ decoded l.input.con.shift s.script.flatten
    rw [hshift, hu]
  · change Paced l.input.con.shift q.length s.script
    rwa [hshift]

variable {cs : List CInt}

theorem readlineOn_next {s₁ : Terminal} (hget : Returns false (Terminal.getchar text depth fuel) s c s₁)
    (hturn : Returns false (readlineTurn text depth fuel (iscons 0#32) i c) s₁.line t l)
    (hrest : Returns false
    (Prog.whileSome
    (readlineStepOn Terminal.onLine (Terminal.getchar text depth fuel) text depth fuel (iscons 0#32)) n t)
      { s₁ with line := l } .line s') :
    Returns false
      (Prog.whileSome
      (readlineStepOn Terminal.onLine (Terminal.getchar text depth fuel) text depth fuel (iscons 0#32)) (n + 1)
      (.again i)) s .line s' := by
  refine returns_whileSome_succ.mpr (Or.inr ⟨t, { s₁ with line := l }, ?_, hrest⟩)
  exact returns_bind.mpr
    ⟨c, s₁, hget, returns_bind.mpr ⟨t, _, returns_zoom.mpr ⟨l, hturn, rfl⟩, returns_pure.mpr ⟨rfl, rfl⟩⟩⟩

theorem Awaits.edits (h : Awaits mem s (cs ++ c :: rest)) (hc : c = chr '\n' ∨ c = chr '\r')
    (hcs : ∀ d ∈ cs, d ≠ chr '\n' ∧ d ≠ chr '\r') (hin : DeletesInside (s.line.held i) cs) (hd : 2 ≤ depth)
    (he : EnoughFuel text depth fuel mem s.script) (hediting : Editing i s.line) (hn : cs.length + 2 ≤ n) :
    ∃ s', Returns false
    (Prog.whileSome
    (readlineStepOn Terminal.onLine (Terminal.getchar text depth fuel) text depth fuel (iscons 0#32)) n
        (.again i)) s .line s' ∧ Awaits mem s' rest ∧ s'.script <:+ s.script ∧
        s'.line.input.con.wiring = s.line.input.con.wiring ∧
      IsLine s'.line.buf (cs.foldl edit (s.line.held i)) := by
  induction cs generalizing s i n with
  | nil =>
    obtain ⟨n, rfl⟩ : ∃ k, n = k + 2 := ⟨n - 2, by rw [List.length_nil] at hn; omega⟩
    obtain ⟨s₁, hget, h₁, hsuffix, hbuf, hwiring⟩ := h.getcharOn_takes hd he he.polls
    have hsame : (s₁.line.input.con.wiring, s₁.line.buf) = (s.line.input.con.wiring, s.line.buf) := by
      rw [hbuf, hwiring]
    obtain ⟨hediting₁, hheld⟩ := hediting.framed hsame
    obtain ⟨l, hturn, hline, _⟩ := @readlineTurn_ends text depth fuel s₁.line c i hd hediting₁ hc
    have hstill := still_turn hd _ _ _ _ ⟨h₁.alone, rfl, rfl⟩ hturn
    have hkeep : l.input.con.wiring = s₁.line.input.con.wiring := frames_readlineTurn _ _ _ _ hturn
    refine ⟨{ s₁ with line := l }, readlineOn_next hget hturn ?_, h₁.of_still hstill, hsuffix,
      hkeep.trans hwiring, ?_⟩
    · exact returns_whileSome_succ.mpr (Or.inl ⟨returns_pure.mpr ⟨rfl, rfl⟩, rfl⟩)
    · rwa [hheld] at hline
  | cons d cs ih =>
    obtain ⟨n, rfl⟩ : ∃ k, n = k + 1 := ⟨n - 1, by omega⟩
    obtain ⟨hnewline, hcs⟩ := List.forall_mem_cons.mp hcs
    obtain ⟨s₁, hget, h₁, hsuffix, hbuf, hwiring⟩ := h.getcharOn_takes hd he he.polls
    have hsame : (s₁.line.input.con.wiring, s₁.line.buf) = (s.line.input.con.wiring, s.line.buf) := by
      rw [hbuf, hwiring]
    obtain ⟨hediting₁, hheld⟩ := hediting.framed hsame
    have hlt : d.toNat < 256 := (h.chars d List.mem_cons_self).2
    obtain ⟨i', l, out, hturn, _, hstep⟩ := @readlineTurn_edits text depth fuel s₁.line d i hd hediting₁
      (Nat.le_of_lt_succ hlt)
      hnewline.1 hnewline.2
    have hstill := still_turn hd _ _ _ _ ⟨h₁.alone, rfl, rfl⟩ hturn
    have hkeep : l.input.con.wiring = s₁.line.input.con.wiring := frames_readlineTurn _ _ _ _ hturn
    have hedit : l.held i' = edit (s.line.held i) d := by
      rw [hstep.held, hheld, if_neg (fun hbad => hin.1 hbad.1 hbad.2)]
    rw [List.length_cons] at hn
    obtain ⟨s', hloop, hrest, hs', hwiring', hline⟩ := ih (h₁.of_still hstill) hcs (by rw [hedit]; exact hin.2)
      (he.suffix hsuffix)
      hstep.editing (n := n) (by omega)
    refine ⟨s', readlineOn_next hget hturn hloop, hrest, hs'.trans hsuffix, hwiring'.trans (hkeep.trans hwiring), ?_⟩
    rwa [hedit] at hline

/-! ### From the keys to the line -/

theorem printf_ends {fmt : Word} {ap : List Word} {out : List CInt} (hd : 2 ≤ depth)
    (h : Emits false text.ro mem fmt ap out) :
    ∃ fuel₀, ∀ fuel ≥ fuel₀, ∀ d, Controller.Prints mem d →
    ∃ r d', Returns false (consolePrintf text depth fuel fmt ap) d r d' := by
  obtain ⟨fuel₀, s, hr, _⟩ := h
  refine ⟨fuel₀, fun fuel hfuel d hprints => ?_⟩
  obtain ⟨t, ht, _⟩ := (Controller.onScreen_refines hd).vprintfmt hfuel fmt ap _ _
    ((mem, d), 0#32) _ _ ⟨rfl, rfl, hprints.2⟩ hr
  refine ⟨t.2, { t.1.2 with mem := t.1.1 }, returns_zoom.mpr ⟨t.1, ?_, rfl⟩⟩
  rw [hprints.1]
  exact returns_cprintf.mpr (returns_vcprintf.mpr ht)

theorem readlinePrompt_ends (hd : 2 ≤ depth) (h : prompt ≠ 0#32 →
    ∃ out, Emits false text.ro mem text.percentS [prompt] out) :
    ∃ fuel₀, ∀ fuel ≥ fuel₀, ∀ l : LineInput, Controller.Prints mem l.input.con →
      ∃ l', Returns false (readlinePrompt text depth fuel prompt) l () l' := by
  by_cases hp : prompt = 0#32
  · refine ⟨0, fun fuel _ l _ => ⟨l, ?_⟩⟩
    exact returns_ite.mpr (Or.inr ⟨not_not.mpr hp, returns_pure.mpr ⟨rfl, rfl⟩⟩)
  · obtain ⟨out, hout⟩ := h hp
    obtain ⟨fuel₀, hends⟩ := @printf_ends text depth mem _ _ _ hd hout
    refine ⟨fuel₀, fun fuel hfuel l hl => ?_⟩
    obtain ⟨r, d, hr⟩ := hends fuel hfuel _ hl
    exact ⟨_, returns_ite.mpr
      (Or.inl ⟨hp, returns_bind.mpr ⟨r, _, returns_onConsole hr, returns_pure.mpr ⟨rfl, rfl⟩⟩⟩)⟩

structure AtRest (text : ConsoleTexts) (k : Keyboard) (s : Terminal) : Prop where
  reflects : Reflects s.line.input.con.shift k
  queue : s.queue = []
  empty : Pending s.line.input.cons []
  serial : s.line.input.con.serialExists = false
  inside : s.line.input.con.cPos.toNat < crtSize
  apart : s.line.input.con.Apart serialData
  rebooting : ∃ x, IsCString s.line.input.con.mem text.rebooting x ∧ ∀ b ∈ x, b ≠ 37#8

variable {keyboard : Keyboard} {es : List KeyEvent} {caps : Bool} {b : Byte} {y : List Byte}

theorem AtRest.awaits (h : AtRest text keyboard s) (hpaced : Paced s.line.input.con.shift 0 s.script) :
    Awaits s.line.input.con.mem s (decoded s.line.input.con.shift s.script.flatten) :=
  ⟨h.queue, ⟨⟨rfl, h.inside⟩, h.serial⟩, [], h.empty, rfl, hpaced⟩

theorem AtRest.enough (h : AtRest text keyboard s) (hd : 2 ≤ depth) :
    ∃ fuel₀, ∀ fuel ≥ fuel₀, EnoughFuel text depth fuel s.line.input.con.mem s.script := by
  obtain ⟨x, hx, hplain⟩ := h.rebooting
  obtain ⟨fuel₀, hends⟩ := @Controller.consolePrintf_ends text depth _ _ _ hd hx hplain
  refine ⟨max fuel₀ (s.script.length + s.script.flatten.length + 2), fun fuel hfuel => ?_⟩
  have hlong := le_of_max_le_right hfuel
  refine ⟨hends fuel (le_of_max_le_left hfuel), by omega, fun bs hbs => ?_⟩
  have hpart : bs.length ≤ s.script.flatten.length := (List.sublist_flatten_of_mem hbs).length_le
  omega

theorem character_ne_delete (k : Keyboard) (j : Byte) : k.character j ≠ 0x7f#8 := by
  have hmaps : ∀ j : Byte, (ctlmap j ≠ 0x7f#8 ∧ shiftmap j ≠ 0x7f#8 ∧ normalmap j ≠ 0x7f#8) := by decide +kernel
  have hcase : ∀ b : Byte, b ≠ 0x7f#8 → swapCase b ≠ 0x7f#8 := by decide +kernel
  obtain ⟨hctl, hshift, hnormal⟩ := hmaps j
  unfold Keyboard.character
  have hplain : (if k.ctlHeld then ctlmap j else if k.shiftHeld then shiftmap j else normalmap j) ≠ 0x7f#8 := by
    split_ifs <;> assumption
  dsimp only
  split
  · exact hcase _ hplain
  · exact hplain

theorem types_ne_delete : ∀ b ∈ keyboard.types es, b ≠ 0x7f#8 := by
  induction es generalizing keyboard with
  | nil => exact nofun
  | cons e es ih =>
    intro b hb
    rcases List.mem_append.mp hb with hb | hb
    · unfold Keyboard.strikes at hb
      split at hb
      · rw [List.mem_singleton.mp hb]
        exact character_ne_delete _ _
      · cases hb
    · exact ih b hb

theorem deletesInside_of_ne (h : ∀ d ∈ cs, d ≠ chr '\x7f') (line : List Byte) : DeletesInside line cs := by
  induction cs generalizing line with
  | nil => trivial
  | cons d cs ih =>
    obtain ⟨hd, hcs⟩ := List.forall_mem_cons.mp h
    exact ⟨fun hdel => absurd hdel hd, ih hcs _⟩

theorem byte_eq : ∀ b : Byte, ((b.setWidth 32 : CInt) = chr '\n' ↔ b = key '\n') ∧
    ((b.setWidth 32 : CInt) = chr '\r' ↔ b = key '\r') ∧
    ((b.setWidth 32 : CInt) = chr '\x7f' ↔ b = 0x7f#8) := by
  decide +kernel

theorem AtRest.readline (h : AtRest text keyboard s)
    (hprompt : prompt ≠ 0#32 → ∃ out, Emits false text.ro s.line.input.con.mem text.percentS [prompt] out)
    (hd : 2 ≤ depth)
    (hpaced : Paced s.line.input.con.shift 0 s.script)
    (htext : decoded s.line.input.con.shift s.script.flatten = cs ++ c :: rest)
    (hc : c = chr '\n' ∨ c = chr '\r') (hcs : ∀ d ∈ cs, d ≠ chr '\n' ∧ d ≠ chr '\r') (hin : DeletesInside [] cs) :
    ∃ fuel₀, ∀ fuel ≥ fuel₀, ∃ s', Returns false (Terminal.readline text depth fuel prompt) s .line s' ∧
      IsLine s'.line.buf (cs.foldl edit []) ∧ Awaits s.line.input.con.mem s' rest := by
  obtain ⟨fuel₁, henough⟩ := @AtRest.enough text depth s keyboard h hd
  obtain ⟨fuel₂, hends⟩ := @readlinePrompt_ends text depth _ prompt hd hprompt
  refine ⟨max (max fuel₁ fuel₂) (cs.length + 2), fun fuel hfuel => ?_⟩
  have hfuel₁ := le_of_max_le_left (le_of_max_le_left hfuel)
  have hfuel₂ := le_of_max_le_right (le_of_max_le_left hfuel)
  obtain ⟨l, hr⟩ := hends fuel hfuel₂ s.line ⟨rfl, h.inside⟩
  have hawaits := h.awaits hpaced
  have hawaits₁ := hawaits.of_still (still_prompt hd _ _ _ _ ⟨hawaits.alone, rfl, rfl⟩ hr)
  rw [htext] at hawaits₁
  have hedit : Editing 0 l := by
    have hstart : Editing 0 s.line := ⟨Nat.zero_le _, h.apart, List.not_mem_nil⟩
    exact (hstart.framed (frames_readlinePrompt _ _ _ _ hr)).1
  obtain ⟨s', hloop, hrest, _, _, hline⟩ := hawaits₁.edits (i := 0) hc hcs hin hd (henough fuel hfuel₁) hedit
    (le_of_max_le_right hfuel)
  exact ⟨s', returns_bind.mpr ⟨(), _, returns_zoom.mpr ⟨l, hr, rfl⟩, hloop⟩, hline, hrest⟩

theorem readline_types (h : AtRest text keyboard s)
    (hprompt : prompt ≠ 0#32 → ∃ out, Emits false text.ro s.line.input.con.mem text.percentS [prompt] out)
    (hd : 2 ≤ depth)
    (hbytes : s.script.flatten = es.flatMap KeyEvent.bytes) (hes : KeyStream keyboard.held es)
    (ha : AllReleasedAlone keyboard.held es) (hpaced : Paced s.line.input.con.shift 0 s.script)
    (htypes : keyboard.types es = x ++ b :: y) (hb : b = key '\n' ∨ b = key '\r') (hx : ∀ d ∈ x, d ≠ key '\n' ∧
    d ≠ key '\r') :
    ∃ fuel₀, ∀ fuel ≥ fuel₀, ∃ s', Returns false (Terminal.readline text depth fuel prompt) s .line s' ∧
      IsLine s'.line.buf ((x.map (·.setWidth 32)).foldl edit []) ∧
        Awaits s.line.input.con.mem s' (y.map (·.setWidth 32)) := by
  have htext : decoded s.line.input.con.shift s.script.flatten = x.map (·.setWidth 32) ++ b.setWidth 32 ::
    y.map (·.setWidth 32) := by
    rw [hbytes, (h.reflects.decoded_types hes ha).1, htypes, List.map_append, List.map_cons]
  have hnewline : (b.setWidth 32 : CInt) = chr '\n' ∨ (b.setWidth 32 : CInt) = chr '\r' :=
    hb.imp (byte_eq b).1.mpr (byte_eq b).2.1.mpr
  have hplain : ∀ d ∈ x.map (·.setWidth 32), (d : CInt) ≠ chr '\n' ∧ d ≠ chr '\r' := by
    refine List.forall_mem_map.mpr (fun d hmem => ?_)
    exact ⟨mt (byte_eq d).1.mp (hx d hmem).1, mt (byte_eq d).2.1.mp (hx d hmem).2⟩
  have hinside : DeletesInside [] (x.map (·.setWidth 32)) := by
    refine deletesInside_of_ne (List.forall_mem_map.mpr (fun d hmem => mt (byte_eq d).2.2.mp ?_)) _
    exact types_ne_delete d (htypes ▸ List.mem_append_left _ hmem)
  exact h.readline hprompt hd hpaced htext hnewline hplain hinside

theorem paced_of_short {script : List (List Byte)} (h : n + (decoded shift script.flatten).length ≤ 511) :
    Paced shift n script := by
  induction script generalizing shift n with
  | nil => trivial
  | cons bs script ih =>
    rw [List.flatten_cons, decoded_append, List.length_append] at h
    exact ⟨by omega, ih (by omega)⟩

def typedTerminal : Terminal where
  line := { input := idleController.input, buf := fun _ => 0#8 }
  queue := []
  script := [[], [0x1E#8], [], [0x9E#8, 0x1C#8], [0x9C#8]]

theorem typedTerminal_atRest : AtRest noTexts (idle false) typedTerminal where
  reflects := idleController_reflects
  queue := rfl
  empty := idleController_pending
  serial := rfl
  inside := by decide
  apart := by decide
  rebooting := ⟨[], idleController_text, nofun⟩

theorem readline_types_small :
    ∃ fuel s', Returns false (Terminal.readline noTexts 2 fuel 0#32) typedTerminal .line s' ∧
    IsLine s'.line.buf [0x61#8] := by
  have hpaced : Paced typedTerminal.line.input.con.shift 0 typedTerminal.script := paced_of_short (by decide)
  have hbytes : typedTerminal.script.flatten =
    (stroke ⟨false, 0x1E#8⟩ ++ stroke ⟨false, 0x1C#8⟩).flatMap KeyEvent.bytes := rfl
  have htypes : (idle false).types (stroke ⟨false, 0x1E#8⟩ ++ stroke ⟨false, 0x1C#8⟩) = [0x61#8] ++ key '\n' ::
    [] := by
    decide
  obtain ⟨fuel, hall⟩ := readline_types typedTerminal_atRest (fun h => absurd rfl h) (Nat.le_refl 2) hbytes
    (by decide) (by decide) hpaced
    htypes (Or.inl rfl) (by decide)
  obtain ⟨s', hr, hline, _⟩ := hall fuel (Nat.le_refl fuel)
  exact ⟨fuel, s', hr, hline⟩

/-! ### A text -/

def Printable (b : Byte) : Prop := 0x20#8 ≤ b ∧ b ≤ 0x7E#8

instance : DecidablePred Printable := fun _ => inferInstanceAs (Decidable (_ ∧ _))

theorem printable_chars : ∀ b, Printable b → Typable b ∧ Printable (swapCase b) ∧ b ≠ key '\n' ∧ b ≠ key '\r' ∧
    (b.setWidth 32 : CInt) ≠ chr '\x08' ∧ (b.setWidth 32 : CInt) ≠ chr '\x7f' ∧ 0x20 ≤ (b.setWidth 32 : CInt).toNat ∧
    (b.setWidth 32 : CInt).setWidth 8 = b := by
  decide +kernel

theorem foldl_edit (line : List Byte) (hx : ∀ b ∈ x, Printable b) (hlen : line.length + x.length < buflen) :
    (x.map (·.setWidth 32)).foldl edit line = line ++ x := by
  induction x generalizing line with
  | nil => exact (List.append_nil line).symm
  | cons b x ih =>
    obtain ⟨hb, hx⟩ := List.forall_mem_cons.mp hx
    obtain ⟨_, _, _, _, hback, hdel, hlow, hbyte⟩ := printable_chars b hb
    rw [List.length_cons] at hlen
    have hone : edit line (b.setWidth 32) = line ++ [b] := by
      rw [edit, if_neg (not_or.mpr ⟨hback, hdel⟩), if_pos ⟨hlow, by omega⟩, hbyte]
    rw [List.map_cons, List.foldl_cons, hone,
      ih _ hx (by rw [List.length_append, List.length_singleton]; omega), List.append_assoc,
      List.singleton_append]

theorem readline_text (h : AtRest text (idle caps) s)
    (hprompt : prompt ≠ 0#32 → ∃ out, Emits false text.ro s.line.input.con.mem text.percentS [prompt] out)
    (hd : 2 ≤ depth)
    (hx : ∀ b ∈ x, Printable b) (hlen : x.length < buflen)
    (hbytes : s.script.flatten = ((x ++ [key '\n']).flatMap typing).flatMap KeyEvent.bytes)
    (hpaced : Paced s.line.input.con.shift 0 s.script) :
    ∃ fuel₀, ∀ fuel ≥ fuel₀, ∃ s', Returns false (Terminal.readline text depth fuel prompt) s .line s' ∧
      IsLine s'.line.buf (x.map (fun b => if caps then swapCase b else b)) ∧ Awaits s.line.input.con.mem s' [] := by
  have htypable : ∀ b ∈ x ++ [key '\n'], Typable b := by
    intro b hb
    rcases List.mem_append.mp hb with hb | hb
    · exact (printable_chars b (hx b hb)).1
    · rw [List.mem_singleton.mp hb]
      decide
  obtain ⟨htypes, hes, ha⟩ := text_types htypable caps
  have hcase : ∀ b ∈ x, Printable (if caps then swapCase b else b) := by
    intro b hb
    split
    · exact (printable_chars b (hx b hb)).2.1
    · exact hx b hb
  have hprintable : ∀ b ∈ x.map (fun b => if caps then swapCase b else b), Printable b :=
    List.forall_mem_map.mpr hcase
  have henter : (if caps then swapCase (key '\n') else key '\n') = key '\n' := by cases caps <;> rfl
  have htext : decoded s.line.input.con.shift s.script.flatten =
      (x.map (fun b => if caps then swapCase b else b)).map (·.setWidth 32) ++ chr '\n' :: [] := by
    rw [hbytes, (h.reflects.decoded_types hes ha).1, htypes, List.map_append, List.map_singleton, henter,
      List.map_append]
    rfl
  have hplain : ∀ d ∈ (x.map (fun b => if caps then swapCase b else b)).map (·.setWidth 32), (d : CInt) ≠
    chr '\n' ∧ d ≠ chr '\r' := by
    refine List.forall_mem_map.mpr (fun b hb => ?_)
    obtain ⟨_, _, hnl, hcr, _⟩ := printable_chars b (hprintable b hb)
    exact ⟨mt (byte_eq b).1.mp hnl, mt (byte_eq b).2.1.mp hcr⟩
  have hinside : DeletesInside [] ((x.map (fun b => if caps then swapCase b else b)).map (·.setWidth 32)) :=
    deletesInside_of_ne (List.forall_mem_map.mpr (fun b hb => (printable_chars b (hprintable b hb)).2.2.2.2.2.1)) _
  obtain ⟨fuel₀, hall⟩ := h.readline hprompt hd hpaced htext (Or.inl rfl) hplain hinside
  refine ⟨fuel₀, fun fuel hfuel => ?_⟩
  obtain ⟨s', hr, hline, hrest⟩ := hall fuel hfuel
  rw [foldl_edit [] hprintable (by rw [List.length_nil, List.length_map]; omega), List.nil_append] at hline
  exact ⟨s', hr, hline, hrest⟩

theorem readline_text_small :
    ∃ fuel s', Returns false (Terminal.readline noTexts 2 fuel 0#32) typedTerminal .line s' ∧
    IsLine s'.line.buf [key 'a'] := by
  have hpaced : Paced typedTerminal.line.input.con.shift 0 typedTerminal.script := paced_of_short (by decide)
  obtain ⟨fuel, hall⟩ := readline_text typedTerminal_atRest (fun h => absurd rfl h) (Nat.le_refl 2) (x :=
    [key 'a']) (by decide) (by decide)
    (by decide +kernel) hpaced
  obtain ⟨s', hr, hline, _⟩ := hall fuel (Nat.le_refl fuel)
  exact ⟨fuel, s', hr, hline⟩

end Cezos
