import Cezos.Console.Input
import Cezos.Console.Scrollback

namespace Cezos

open Lib

def buflen : ℕ := 1024

structure LineInput where
  input : Input
  buf : ℕ → Byte

namespace LineInput

def screen (s : LineInput) : Screen (BitVec 16) := s.input.con.screen

def setBuf (s : LineInput) (i : ℕ) (c : CInt) : LineInput := { s with buf := Function.update s.buf i (c.setWidth 8) }

@[simp] theorem setBuf_screen {s : LineInput} {i : ℕ} {c : CInt} : (s.setBuf i c).screen = s.screen := rfl

end LineInput

def onInput {α : Type} (x : Prog Input α) : Prog LineInput α :=
  Prog.zoom (·.input) (fun s input => { s with input := input }) x

inductive Turn where
  | again (i : ℕ)
  | null
  | line

def iscons (_fdnum : CInt) : CInt := 1#32

section Calls

variable (text : ConsoleTexts) (depth fuel : ℕ)

def echo (echoing c : CInt) : Prog LineInput Unit :=
  if echoing ≠ 0#32 then onInput (onConsole (cputchar depth c))
  else return ()

def readlineTurn (echoing : CInt) (i : ℕ) (c : CInt) : Prog LineInput Turn :=
  if c.toInt < 0 then do
    let _ ← onInput (onConsole (consolePrintf text depth fuel text.readError [c]))
    return .null
  else if (c = chr '\x08' ∨ c = chr '\x7f') ∧ 0 < i then do
    echo depth echoing (chr '\x08')
    return .again (i - 1)
  else if (chr ' ').toInt ≤ c.toInt ∧ i < buflen - 1 then do
    echo depth echoing c
    Prog.modify (·.setBuf i c)
    return .again (i + 1)
  else if c = chr '\n' ∨ c = chr '\r' then do
    echo depth echoing (chr '\n')
    Prog.modify (·.setBuf i 0#32)
    return .line
  else return .again i

def readlinePrompt (prompt : Word) : Prog LineInput Unit :=
  if prompt ≠ 0#32 then do
    let _ ← onInput (onConsole (consolePrintf text depth fuel text.percentS [prompt]))
    return ()
  else return ()

def readlineStep (echoing : CInt) : Turn → Prog LineInput (Option Turn)
  | .again i => do
    let c ← onInput (getchar text depth fuel)
    let t ← readlineTurn text depth fuel echoing i c
    return some t
  | .null => return none
  | .line => return none

def readline (prompt : Word) : Prog LineInput Turn := do
  readlinePrompt text depth fuel prompt
  Prog.whileSome (readlineStep text depth fuel (iscons 0#32)) fuel (.again 0)

end Calls

variable {st : Bool} {text : ConsoleTexts} {depth fuel : ℕ} {s s₁ s' : LineInput} {c : CInt} {i i' : ℕ}
    {cs : List CInt}
  {prompt : Word} {t : Turn}

def Typed (c : CInt) : Prop := 1 ≤ c.toNat ∧ c.toNat ≤ 255 ∧ c ≠ chr '\n' ∧ c ≠ chr '\r'

def Waits (s s' : LineInput) : Prop := s'.screen = s.screen ∧ s'.buf = s.buf

def Takes (st : Bool) (text : ConsoleTexts) (depth fuel : ℕ) (p : ℕ × LineInput) (c : CInt)
    (p' : ℕ × LineInput) : Prop :=
  ∃ s₁, Waits p.2 s₁ ∧ Returns st (readlineTurn text depth fuel (iscons 0#32) p.1 c) s₁ (.again p'.1) p'.2

def shownAs (b : Byte) : BitVec 16 := 0x0700#16 ||| b.setWidth 16

structure Echoed (i : ℕ) (s : LineInput) : Prop where
  fits : i ≤ buflen - 1
  inside : s.screen.pos < crtSize
  shown : Screen.Before i (fun j => shownAs (s.buf j)) s.screen

theorem returns_onConsole {α : Type} {x : Con α} {a : α} {d : Console} (h : Returns st x s.input.con a d) :
    Returns st (onInput (onConsole x)) s a { s with input := { s.input with con := d } } :=
  returns_zoom.mpr ⟨_, returns_zoom.mpr ⟨d, h, rfl⟩, rfl⟩

theorem echo_returns (hd : 2 ≤ depth) (hs : s.screen.pos < crtSize) :
    ∃ s', Returns true (echo depth (iscons 0#32) c) s () s' ∧ s'.screen = putOn c s.screen ∧
    s'.screen.pos < crtSize ∧
      s'.buf = s.buf := by
  obtain ⟨d, hput, hscreen, hpos⟩ := cputchar_acts (c := c) hd s.input.con hs
  exact ⟨_, returns_ite.mpr (Or.inl ⟨by decide, returns_onConsole hput⟩), hscreen, hpos, rfl⟩

namespace Echoed

theorem erase (he : Echoed (i + 1) s) (hs' : s'.screen = putOn (chr '\x08') s.screen)
    (hpos : s'.screen.pos < crtSize)
    (hbuf : s'.buf = s.buf) : Echoed i s' where
  fits := (Nat.le_succ i).trans he.fits
  inside := hpos
  shown := by
    have hput : putOn (chr '\x08') s.screen = scrolled (s.screen.erase blankCell) := rfl
    have hb := he.shown.erase (v := blankCell)
    have hlast : (s.screen.erase blankCell).pos ≤ crtCols * crtRows := by
      have hin : s.screen.pos < crtCols * crtRows := he.inside
      unfold Screen.erase
      split
      · change s.screen.pos - 1 ≤ _
        omega
      · omega
    have hroom : i + crtCols ≤ crtCols * crtRows := by
      have hfits : i + 1 ≤ 1023 := he.fits
      change i + 80 ≤ 2000
      omega
    rw [hs', hput, hbuf]
    exact hb.scroll hlast hroom

theorem write {b : Byte} (he : Echoed i s) (hb : 0x20#8 ≤ b) (hi : i < buflen - 1)
    (hs' : s'.screen = putOn (b.setWidth 32) s.screen)
    (hpos : s'.screen.pos < crtSize) (hbuf : s'.buf = Function.update s.buf i b) : Echoed (i + 1) s' where
  fits := hi
  inside := hpos
  shown := by
    have hold : Screen.Before i (fun j => shownAs (s'.buf j)) s.screen := he.shown.congr (fun j hj => by
      rw [hbuf, Function.update_of_ne (Nat.ne_of_lt hj)])
    have hnew : shownAs (s'.buf i) = shownAs b := by rw [hbuf, Function.update_self]
    have hlast : (s.screen.write (shownAs b)).pos ≤ crtCols * crtRows := he.inside
    have hroom : i + 1 + crtCols ≤ crtCols * crtRows := by
      have hfits : i < 1023 := hi
      change i + 1 + 80 ≤ 2000
      omega
    rw [hs', putOn_write hb]
    exact (hold.write hnew).scroll hlast hroom

theorem waits (he : Echoed i s) (hw : Waits s s') : Echoed i s' where
  fits := he.fits
  inside := by
    rw [hw.1]
    exact he.inside
  shown := by
    rw [hw.1, hw.2]
    exact he.shown

end Echoed

theorem readlineTurn_echoed (hd : 2 ≤ depth) (hc : Typed c) (he : Echoed i s) :
    ∃ i' s', Returns true (readlineTurn text depth fuel (iscons 0#32) i c) s (.again i') s' ∧ Echoed i' s' := by
  obtain ⟨_, hhi, hnl, hcr⟩ := hc
  have hint : c.toInt = c.toNat := by rw [BitVec.toInt_eq_toNat_cond, if_pos (by omega)]
  have hspace : (chr ' ').toInt = 32 := by decide
  unfold readlineTurn
  rw [if_neg (by omega)]
  by_cases hdel : (c = chr '\x08' ∨ c = chr '\x7f') ∧ 0 < i
  · obtain ⟨k, rfl⟩ : ∃ k, i = k + 1 := ⟨i - 1, by omega⟩
    obtain ⟨s₁, hecho, hscreen, hpos, hbuf⟩ := echo_returns (c := chr '\x08') hd he.inside
    refine ⟨k, s₁, ?_, he.erase hscreen hpos hbuf⟩
    rw [if_pos hdel]
    exact returns_bind.mpr ⟨(), s₁, hecho, returns_pure.mpr ⟨rfl, rfl⟩⟩
  · rw [if_neg hdel]
    by_cases hput : (chr ' ').toInt ≤ c.toInt ∧ i < buflen - 1
    · obtain ⟨s₁, hecho, hscreen, hpos, hbuf⟩ := echo_returns (c := c) hd he.inside
      have hbyte : (c.setWidth 8).setWidth 32 = c := by
        apply BitVec.eq_of_toNat_eq
        simp only [BitVec.toNat_setWidth]
        omega
      have hlow : 0x20#8 ≤ c.setWidth 8 := by
        rw [BitVec.le_def, BitVec.toNat_setWidth]
        change 32 ≤ _
        omega
      rw [← hbyte] at hscreen
      refine ⟨i + 1, s₁.setBuf i c, ?_, ?_⟩
      · rw [if_pos hput]
        refine returns_bind.mpr ⟨(), s₁, hecho, returns_bind.mpr ⟨(), s₁.setBuf i c, ?_, ?_⟩⟩
        · exact returns_modify.mpr rfl
        · exact returns_pure.mpr ⟨rfl, rfl⟩
      · refine he.write hlow hput.2 hscreen hpos ?_
        change Function.update s₁.buf i _ = _
        rw [hbuf]
    · rw [if_neg hput, if_neg (by simp [hnl, hcr])]
      exact ⟨i, s, returns_pure.mpr ⟨rfl, rfl⟩, he⟩

theorem takes_echoed {p p' : ℕ × LineInput} (hd : 2 ≤ depth) (hc : Typed c) (he : Echoed p.1 p.2)
    (h : Takes st text depth fuel p c p') : Echoed p'.1 p'.2 := by
  obtain ⟨s₁, hwait, hturn⟩ := h
  obtain ⟨i', s', hturn', he'⟩ := @readlineTurn_echoed text depth fuel s₁ c p.1 hd hc (he.waits hwait)
  obtain ⟨heq, rfl⟩ := hturn.unique hturn'
  cases heq
  exact he'

theorem takes_exists {p : ℕ × LineInput} (hd : 2 ≤ depth) (hcs : ∀ c ∈ cs, Typed c) (he : Echoed p.1 p.2) :
    ∃ p', Trace (Takes true text depth fuel) p cs p' := by
  induction cs generalizing p with
  | nil => exact ⟨p, .nil p⟩
  | cons c cs ih =>
    obtain ⟨i', s', hturn, he'⟩ := @readlineTurn_echoed text depth fuel p.2 c p.1 hd (hcs c List.mem_cons_self) he
    obtain ⟨p', hrun⟩ := @ih (i', s') (fun d hd => hcs d (List.mem_cons_of_mem _ hd)) he'
    exact ⟨p', .cons ⟨p.2, ⟨rfl, rfl⟩, hturn⟩ hrun⟩

theorem readline_echoes (hd : 2 ≤ depth) (hs : s.input.con.cPos.toNat < crtSize) (hcs : ∀ c ∈ cs, Typed c) :
    (∃ p, Trace (Takes true text depth fuel) (0, s) cs p) ∧
    ∀ i s', Trace (Takes false text depth fuel) (0, s) cs (i, s') →
      i ≤ buflen - 1 ∧ i ≤ s'.input.con.cPos.toNat ∧ s'.input.con.cPos.toNat < crtSize ∧
      ∀ j < i, s'.input.con.cell (s'.input.con.cPos.toNat - i + j) = 0x0700#16 ||| (s'.buf j).setWidth 16 := by
  have hstart : Echoed 0 s := ⟨Nat.zero_le _, hs, .zero⟩
  refine ⟨takes_exists hd hcs hstart, fun i s' hrun => ?_⟩
  have hend : Echoed i s' := hrun.invariant (I := fun p => Echoed p.1 p.2)
    (fun p c p' hc he htakes => takes_echoed hd (hcs c hc) he htakes) hstart
  exact ⟨hend.fits, hend.shown.le, hend.inside, hend.shown.eq⟩

def fullLine : LineInput where
  input := { con := fullConsole, cons := ⟨fun _ => 0#8, 0#32, 0#32⟩ }
  buf _ := 0#8

theorem readline_echoes_full : ∃ p, Trace (Takes true noTexts 2 0) (0, fullLine) [chr 'a', chr 'b', chr '\x08'] p ∧
    p.1 ≤ buflen - 1 := by
  have htyped : ∀ c ∈ [chr 'a', chr 'b', chr '\x08'], Typed c := by
    intro c hc
    simp only [List.mem_cons, List.not_mem_nil, or_false] at hc
    rcases hc with rfl | rfl | rfl <;> exact ⟨by decide, by decide, by decide, by decide⟩
  have hinside : fullLine.input.con.cPos.toNat < crtSize := by decide
  obtain ⟨⟨p, hrun⟩, hall⟩ := @readline_echoes noTexts 2 0 fullLine _ (Nat.le_refl 2) hinside htyped
  have hloose : Trace (Takes false noTexts 2 0) (0, fullLine) [chr 'a', chr 'b', chr '\x08'] p := by
    apply hrun.mono
    rintro p c p' ⟨s₁, hw, hturn⟩
    exact ⟨s₁, hw, hturn.loosen⟩
  exact ⟨p, hrun, (hall p.1 p.2 hloose).1⟩

def Gets (st : Bool) (text : ConsoleTexts) (depth fuel : ℕ) (p : ℕ × LineInput) (c : CInt)
    (p' : ℕ × LineInput) : Prop :=
  ∃ s₁, Returns st (onInput (getchar text depth fuel)) p.2 c s₁ ∧
    Returns st (readlineTurn text depth fuel (iscons 0#32) p.1 c) s₁ (.again p'.1) p'.2

theorem leaves {n : ℕ} {t' : Turn} (ht : t' = .null ∨ t' = .line)
    (h : Returns st (Prog.whileSome (readlineStep text depth fuel (iscons 0#32)) n t') s t s') :
    t = t' ∧ s' = s := by
  cases n with
  | zero => exact absurd h returns_spin
  | succ n =>
    have hstep : readlineStep text depth fuel (iscons 0#32) t' = pure none := by
      rcases ht with rfl | rfl <;> rfl
    rcases returns_whileSome_succ.mp h with ⟨hnone, rfl⟩ | ⟨b, s₁, hsome, _⟩
    · rw [hstep] at hnone
      exact ⟨rfl, (returns_pure.mp hnone).2⟩
    · rw [hstep] at hsome
      cases (returns_pure.mp hsome).1

theorem readlineLoop_gets {n : ℕ}
    (h : Returns st (Prog.whileSome (readlineStep text depth fuel (iscons 0#32)) n (.again i)) s t s') :
    ∃ cs i' s₁ c s₂, Trace (Gets st text depth fuel) (i, s) cs (i', s₁) ∧
      Returns st (onInput (getchar text depth fuel)) s₁ c s₂ ∧
      Returns st (readlineTurn text depth fuel (iscons 0#32) i' c) s₂ t s' ∧ ∀ k, t ≠ .again k := by
  induction n generalizing i s with
  | zero => exact absurd h returns_spin
  | succ n ih =>
    rcases returns_whileSome_succ.mp h with ⟨hstep, _⟩ | ⟨t', s₁, hstep, hrest⟩
    · obtain ⟨c, s₁, _, hk⟩ := returns_bind.mp hstep
      obtain ⟨t', s₂, _, hk⟩ := returns_bind.mp hk
      cases (returns_pure.mp hk).1
    · obtain ⟨c, s₂, hget, hk⟩ := returns_bind.mp hstep
      obtain ⟨t'', s₃, hturn, hk⟩ := returns_bind.mp hk
      obtain ⟨heq, rfl⟩ := returns_pure.mp hk
      obtain rfl := Option.some.inj heq
      cases t' with
      | again i' =>
        obtain ⟨cs, k, s₄, c', s₅, hrun, hend⟩ := ih hrest
        exact ⟨c :: cs, k, s₄, c', s₅, .cons ⟨s₂, hget, hturn⟩ hrun, hend⟩
      | null =>
        obtain ⟨rfl, rfl⟩ := leaves (Or.inl rfl) hrest
        exact ⟨[], i, s, c, s₂, .nil _, hget, hturn, nofun⟩
      | line =>
        obtain ⟨rfl, rfl⟩ := leaves (Or.inr rfl) hrest
        exact ⟨[], i, s, c, s₂, .nil _, hget, hturn, nofun⟩

theorem readline_gets (h : Returns st (readline text depth fuel prompt) s t s') :
    ∃ s₀ cs i s₁ c s₂, Returns st (readlinePrompt text depth fuel prompt) s () s₀ ∧
      Trace (Gets st text depth fuel) (0, s₀) cs (i, s₁) ∧ Returns st (onInput (getchar text depth fuel)) s₁ c s₂ ∧
      Returns st (readlineTurn text depth fuel (iscons 0#32) i c) s₂ t s' ∧ ∀ k, t ≠ .again k := by
  obtain ⟨_, s₀, hprompt, hloop⟩ := returns_bind.mp h
  obtain ⟨cs, i, s₁, c, s₂, hrun, hend⟩ := readlineLoop_gets hloop
  exact ⟨s₀, cs, i, s₁, c, s₂, hprompt, hrun, hend⟩

theorem gets_echoed (hd : 2 ≤ depth) (hs : s.screen.pos < crtSize) (hcs : ∀ c ∈ cs, Typed c)
    (hrun : Trace (fun p c p' => Gets st text depth fuel p c p' ∧
      ∀ s₁, Returns st (onInput (getchar text depth fuel)) p.2 c s₁ → Waits p.2 s₁) (0, s) cs (i, s')) :
      Echoed i s' := by
  have htakes : Trace (Takes st text depth fuel) (0, s) cs (i, s') := hrun.mono (fun p c p' hgets => by
    obtain ⟨⟨s₁, hg, ht⟩, hquiet⟩ := hgets
    exact ⟨s₁, hquiet s₁ hg, ht⟩)
  have hstart : Echoed 0 s := ⟨Nat.zero_le _, hs, .zero⟩
  exact htakes.invariant (I := fun p => Echoed p.1 p.2)
    (fun p c p' hc he htakes => takes_echoed hd (hcs c hc) he htakes) hstart

end Cezos
